import Mathlib.Tactic
import Tasvir.Machine

/-! The transfer of an area to another owner: `tasvir_update_owner`, called by any
thread or executed for one as an RPC, and who has the area mapped to its RW copy. -/
namespace Tasvir
open Machine

/-- What the transfers of an area do not change: the owner of its parent, none for
the root area, and the node of every thread. -/
structure TransferEnv where
  pdOwner : Option ℕ
  nodeOf : ℕ → ℕ

/-- A call of `tasvir_update_owner` that waits for `d->owner`; `touched` tells that
its first part has changed a mapping or the owner. -/
structure OwnerFrame where
  new : ℕ
  viaRpc : Bool
  touched : Bool
deriving DecidableEq, Repr

/-- `owner` is `d->owner` where the owner of the parent writes it and `seen` what
each thread has of it. A request is a destination and the new owner. -/
structure TransferState where
  owner : ℕ
  seen : ℕ → ℕ
  /-- TASVIR_AREA_FLAG_MAPPED_RW in the thread's own mapping -/
  mapped : ℕ → Bool
  /-- TASVIR_AREA_FLAG_LOCAL on each node -/
  isLocal : ℕ → Bool
  requests : List (ℕ × ℕ)
  /-- calls that have not returned, innermost first -/
  calls : ℕ → List OwnerFrame
  aborted : Bool

inductive TransferAct
  /-- thread `t` calls `tasvir_update_owner(d, new)` -/
  | call (t new : ℕ)
  /-- thread `t` handles a request inside `tasvir_service` -/
  | service (t new : ℕ)
  /-- an update of the parent area becomes visible to thread `t` -/
  | sync (t : ℕ)
  /-- the wait of the innermost call ends: `d->owner` is the new owner, or 100 ms have passed -/
  | ret (t : ℕ)

namespace TransferState

/-- `is_new_owner`, `is_old_owner` and `is_parent_owner` of thread `t`. -/
def roles (E : TransferEnv) (s : TransferState) (booting isRoot : Bool) (t new : ℕ) :
    Bool × Bool × Bool :=
  if booting then (true, true, isRoot)
  else (t = new, t = s.seen t, t = E.pdOwner.getD (s.seen t))

/-- `tasvir_update_va`. -/
def updateVa (s : TransferState) (t : ℕ) (isRw : Bool) : TransferState :=
  { s with mapped := Function.update s.mapped t isRw }

/-- `tasvir_update_owner` up to its wait loop, in a thread with the given roles. -/
def tasvirUpdateOwner (E : TransferEnv) (s : TransferState) (r : Bool × Bool × Bool)
    (t new : ℕ) (viaRpc : Bool) : TransferState :=
  let s₁ :=
    if r.1 then
      { s.updateVa t true with
        isLocal := Function.update s.isLocal (E.nodeOf t) true
        -- all threads are running, so the request goes to the owner that `t` knows of
        requests := s.requests ++
          (if !r.2.1 then [(s.seen t, new)]
          else if s.seen t ≠ new ∧ r.2.2 = false then E.pdOwner.toList.map (·, new)
          else []) }
    else if r.2.1 then
      { s.updateVa t false with
        isLocal := if E.nodeOf new ≠ E.nodeOf (s.seen t) then
          Function.update s.isLocal (E.nodeOf t) false else s.isLocal }
    else s
  let s₂ := if r.2.2 then { s₁ with owner := new, seen := Function.update s₁.seen t new } else s₁
  { s₂ with
    calls := Function.update s.calls t
      (⟨new, viaRpc, s₂.mapped t ≠ s.mapped t || s₂.owner ≠ s.owner⟩ :: s.calls t) }

section Fields
variable (E : TransferEnv) (s : TransferState) (r : Bool × Bool × Bool) (t new : ℕ) (viaRpc : Bool)

@[simp] theorem tasvirUpdateOwner_mapped : (s.tasvirUpdateOwner E r t new viaRpc).mapped =
    if r.1 then Function.update s.mapped t true
    else if r.2.1 then Function.update s.mapped t false else s.mapped := by
  obtain ⟨r₁, r₂, r₃⟩ := r
  cases r₁ <;> cases r₂ <;> cases r₃ <;> rfl

@[simp] theorem tasvirUpdateOwner_owner : (s.tasvirUpdateOwner E r t new viaRpc).owner =
    if r.2.2 then new else s.owner := by
  obtain ⟨r₁, r₂, r₃⟩ := r
  cases r₁ <;> cases r₂ <;> cases r₃ <;> rfl

@[simp] theorem tasvirUpdateOwner_seen : (s.tasvirUpdateOwner E r t new viaRpc).seen =
    if r.2.2 then Function.update s.seen t new else s.seen := by
  obtain ⟨r₁, r₂, r₃⟩ := r
  cases r₁ <;> cases r₂ <;> cases r₃ <;> rfl

@[simp] theorem tasvirUpdateOwner_requests : (s.tasvirUpdateOwner E r t new viaRpc).requests =
    s.requests ++ if r.1 then
      (if !r.2.1 then [(s.seen t, new)]
      else if s.seen t ≠ new ∧ r.2.2 = false then E.pdOwner.toList.map (·, new)
      else []) else [] := by
  obtain ⟨r₁, r₂, r₃⟩ := r
  cases r₁ <;> cases r₂ <;> cases r₃ <;> simp [tasvirUpdateOwner, updateVa]

@[simp] theorem tasvirUpdateOwner_calls : (s.tasvirUpdateOwner E r t new viaRpc).calls =
    Function.update s.calls t (⟨new, viaRpc,
      (s.tasvirUpdateOwner E r t new viaRpc).mapped t ≠ s.mapped t ||
        (s.tasvirUpdateOwner E r t new viaRpc).owner ≠ s.owner⟩ :: s.calls t) := rfl

@[simp] theorem tasvirUpdateOwner_aborted :
    (s.tasvirUpdateOwner E r t new viaRpc).aborted = s.aborted := by
  obtain ⟨r₁, r₂, r₃⟩ := r
  cases r₁ <;> cases r₂ <;> cases r₃ <;> rfl

end Fields

def pre (s : TransferState) : TransferAct → Prop
  | .call t _ => s.calls t = []
  | .service t new => (t, new) ∈ s.requests
  | .sync _ => True
  | .ret t => s.calls t ≠ []

def next (E : TransferEnv) (s : TransferState) : TransferAct → TransferState
  | .call t new => s.tasvirUpdateOwner E (s.roles E false false t new) t new false
  | .service t new =>
    let s := { s with requests := s.requests.erase (t, new) }
    s.tasvirUpdateOwner E (s.roles E false false t new) t new true
  | .sync t => { s with seen := Function.update s.seen t s.owner }
  | .ret t => match s.calls t with
    | f :: fs =>
      -- `tasvir_handle_msg_rpc_request` wants to be the owner when the function returns
      { s with
        calls := Function.update s.calls t fs
        aborted := s.aborted || (f.viaRpc && s.seen t ≠ t) }
    | [] => s

/-- A new area: its owner has mapped it, and everybody knows the owner. -/
structure Fresh (s : TransferState) : Prop where
  seen : ∀ t, s.seen t = s.owner
  mapped : ∀ t, s.mapped t = decide (t = s.owner)
  idle : s.requests = [] ∧ (∀ t, s.calls t = []) ∧ s.aborted = false

end TransferState

/-- Running threads on one or several nodes. -/
def transferSystem (E : TransferEnv) : System TransferState TransferAct where
  init := TransferState.Fresh
  pre := TransferState.pre
  next := TransferState.next E

/-- Single writer: at most one thread has the area mapped to its RW copy; a call
that can return 0 now has made `new` the owner and the only such thread; one that
can return -1 now has changed nothing; and no thread has aborted. -/
structure SingleWriter (s : TransferState) : Prop where
  single : ∀ t t', s.mapped t = true → s.mapped t' = true → t = t'
  success : ∀ t f fs, s.calls t = f :: fs → s.seen t = f.new →
    s.owner = f.new ∧ ∀ t', s.mapped t' = true ↔ t' = f.new
  failure : ∀ t f fs, s.calls t = f :: fs → s.seen t ≠ f.new → f.touched = false
  aborts : s.aborted = false

/-- The condition on a call: it names the owner as the new owner, or it comes from
a thread that is neither the new owner nor the owner nor the parent's owner. -/
def TransferState.keeps (E : TransferEnv) (s : TransferState) : TransferAct → Prop
  | .call t new => new = s.seen t ∨
      (t ≠ new ∧ t ≠ s.seen t ∧ t ≠ E.pdOwner.getD (s.seen t))
  | _ => True

/-- Nothing moves under the condition. -/
structure TransferInv (s : TransferState) : Prop where
  seen : ∀ t, s.seen t = s.owner
  mapped : ∀ t, s.mapped t = decide (t = s.owner)
  requests : s.requests = []
  frames : ∀ t, ∀ f ∈ s.calls t, f.viaRpc = false ∧ f.touched = false
  aborts : s.aborted = false

namespace TransferInv
variable {E : TransferEnv} {s : TransferState}

theorem init (h : s.Fresh) : TransferInv s where
  seen := h.seen
  mapped := h.mapped
  requests := h.idle.1
  frames := fun t f hf => by simp [h.idle.2.1 t] at hf
  aborts := h.idle.2.2

theorem singleWriter (h : TransferInv s) : SingleWriter s where
  single := fun t t' ht ht' => by
    rw [h.mapped, decide_eq_true_eq] at ht ht'
    rw [ht, ht']
  success := fun t f fs _ hn => by
    have ho : s.owner = f.new := (h.seen t).symm.trans hn
    refine ⟨ho, fun t' => ?_⟩
    rw [h.mapped, decide_eq_true_eq, ho]
  failure := fun t f fs hc _ => (h.frames t f (by simp [hc])).2
  aborts := h.aborts

/-- What a call does when everybody knows the owner and only the owner has the area mapped. -/
theorem call_mapped (h : TransferInv s) (t new t' : ℕ) :
    (s.next E (.call t new)).mapped t' =
      if t' = t ∧ t = new then true else decide (t' = s.owner ∧ ¬(t = s.owner ∧ t ≠ new)) := by
  simp only [TransferState.next, TransferState.roles, TransferState.tasvirUpdateOwner_mapped,
    h.seen]
  grind [h.mapped, Function.update_apply]

/-- A call that meets the condition changes no mapping and no owner and sends nothing. -/
theorem call_keeps (h : TransferInv s) {t new : ℕ} (hk : s.keeps E (.call t new)) :
    (s.next E (.call t new)).mapped = s.mapped ∧ (s.next E (.call t new)).owner = s.owner ∧
      (s.next E (.call t new)).seen = s.seen ∧ (s.next E (.call t new)).requests = s.requests := by
  simp only [TransferState.keeps, h.seen] at hk
  refine ⟨?_, ?_, ?_, ?_⟩
  · ext t'
    rw [h.call_mapped, h.mapped]
    grind
  · simp only [TransferState.next, TransferState.roles, TransferState.tasvirUpdateOwner_owner, h.seen]
    grind
  · ext t'
    simp only [TransferState.next, TransferState.roles, TransferState.tasvirUpdateOwner_seen]
    grind [h.seen, Function.update_apply]
  · simp only [TransferState.next, TransferState.roles, TransferState.tasvirUpdateOwner_requests,
      h.seen]
    grind

theorem call (h : TransferInv s) {t new : ℕ} (hk : s.keeps E (.call t new)) :
    TransferInv (s.next E (.call t new)) := by
  obtain ⟨hm, ho, hs, hr⟩ := h.call_keeps hk
  refine ⟨fun t' => ?_, fun t' => ?_, hr.trans h.requests, fun t' f hf => ?_, ?_⟩
  · rw [hs, ho, h.seen]
  · rw [hm, ho, h.mapped]
  · -- the new frame has touched nothing
    have hc : (s.next E (.call t new)).calls =
        Function.update s.calls t (⟨new, false, false⟩ :: s.calls t) := by
      simp only [TransferState.next] at hm ho ⊢
      rw [TransferState.tasvirUpdateOwner_calls, hm, ho]
      simp
    rw [hc] at hf
    by_cases ht : t' = t
    · subst ht
      rw [Function.update_self, List.mem_cons] at hf
      rcases hf with hf | hf
      · rw [hf]
        exact ⟨rfl, rfl⟩
      · exact h.frames t' f hf
    · rw [Function.update_of_ne ht] at hf
      exact h.frames t' f hf
  · simp [TransferState.next, h.aborts]

theorem ret (h : TransferInv s) (t : ℕ) : TransferInv (s.next E (.ret t)) := by
  simp only [TransferState.next]
  split
  case h_2 => exact h
  case h_1 f fs hc =>
    have hf : f.viaRpc = false := (h.frames t f (by simp [hc])).1
    refine ⟨h.seen, h.mapped, h.requests, fun t' g hg => ?_, by simp [h.aborts, hf]⟩
    dsimp only at hg
    by_cases ht : t' = t
    · subst ht
      rw [Function.update_self] at hg
      exact h.frames t' g (by simp [hc, hg])
    · rw [Function.update_of_ne ht] at hg
      exact h.frames t' g hg

theorem step (h : TransferInv s) {a : TransferAct} (hp : s.pre a) (hk : s.keeps E a) :
    TransferInv (s.next E a) := by
  cases a with
  | call t new => exact h.call hk
  | service t new =>
    -- no call has sent a request
    rw [TransferState.pre, h.requests] at hp
    cases hp
  | sync t =>
    have hs : Function.update s.seen t s.owner = s.seen := by
      rw [← h.seen t, Function.update_eq_self]
    exact ⟨fun t' => by simpa [TransferState.next, hs] using h.seen t', h.mapped, h.requests,
      h.frames, h.aborts⟩
  | ret t => exact h.ret t

theorem reachable (h : ((transferSystem E).restrict (TransferState.keeps E)).Reachable s) :
    TransferInv s :=
  h.invariant (fun _ => TransferInv.init) (fun _ _ hi hp => hi.step hp.1 hp.2)

/-- Any other call breaks the single writer property at once: as the new owner the thread
maps the area while the owner still has it, as the owner it gives it up before anybody
else has it, and as the owner of the parent it names a thread that has not mapped it. -/
theorem keeps_of_singleWriter (h : TransferInv s) {t new : ℕ}
    (hw : SingleWriter (s.next E (.call t new))) : s.keeps E (.call t new) := by
  by_contra hk
  simp only [TransferState.keeps, h.seen, not_or, not_and_or, not_not] at hk
  obtain ⟨hnew, hrole⟩ := hk
  have hmap := h.call_mapped (E := E) t new
  by_cases ht : t = new
  · -- both `t` and the owner have the area mapped
    have h1 : (s.next E (.call t new)).mapped t = true := by rw [hmap, if_pos ⟨rfl, ht⟩]
    have h2 : (s.next E (.call t new)).mapped s.owner = true := by
      rw [hmap]
      grind
    exact hnew (ht.symm.trans (hw.single _ _ h1 h2))
  · have hcall : (s.next E (.call t new)).calls t =
        ⟨new, false, (s.next E (.call t new)).mapped t ≠ s.mapped t ||
          (s.next E (.call t new)).owner ≠ s.owner⟩ :: s.calls t := by
      apply Function.update_self
    by_cases hp : t = E.pdOwner.getD s.owner
    · -- the call can return 0, and `new` has not mapped the area
      have hseen : (s.next E (.call t new)).seen t = new := by
        simp [TransferState.next, TransferState.roles, h.seen, ← hp]
      have h1 := ((hw.success t _ _ hcall hseen).2 new).mpr rfl
      rw [hmap] at h1
      grind
    · -- the call can time out, and the owner has given up its mapping
      have hto : t = s.owner := by grind
      have hseen : (s.next E (.call t new)).seen t ≠ new := by
        simpa [TransferState.next, TransferState.roles, h.seen, hp] using Ne.symm hnew
      have h1 := hw.failure t _ _ hcall hseen
      have h2 : (s.next E (.call t new)).mapped t = false := by
        rw [hmap]
        grind
      have h3 : s.mapped t = true := by simp [h.mapped, hto]
      simp [h2, h3] at h1

end TransferInv

/-- In every run of calls that meet the condition there is a single writer; and at any
state of such a run one more call keeps it so if and only if it meets the condition. -/
theorem single_writer_iff (E : TransferEnv) {s : TransferState}
    (h : ((transferSystem E).restrict (TransferState.keeps E)).Reachable s) :
    SingleWriter s ∧ ∀ t new, s.calls t = [] →
      (SingleWriter (s.next E (.call t new)) ↔ s.keeps E (.call t new)) := by
  have hi := TransferInv.reachable h
  exact ⟨hi.singleWriter, fun t new _ =>
    ⟨hi.keeps_of_singleWriter, fun hk => (hi.call hk).singleWriter⟩⟩

/-- The area of thread 0, which also owns the parent; thread 1 runs on the same node. -/
def TransferState.ofZero : TransferState where
  owner := 0
  seen := fun _ => 0
  mapped := fun t => decide (t = 0)
  isLocal := fun _ => true
  requests := []
  calls := fun _ => []
  aborted := false

theorem TransferState.ofZero_fresh : TransferState.ofZero.Fresh :=
  ⟨fun _ => rfl, fun _ => rfl, rfl, fun _ => rfl, rfl⟩

/-- Thread 2, on another node, waits for thread 1 to become the owner, the owner names itself,
and its call returns 0; the owner may call again, but thread 1 may not ask for the area. -/
theorem single_writer_waiting :
    let E : TransferEnv := ⟨some 0, fun t => t/2⟩
    let s := (transferSystem E).run .ofZero [.call 2 1, .call 0 0, .sync 1, .ret 0]
    SingleWriter s ∧ s.calls 2 = [⟨1, false, false⟩] ∧ SingleWriter (s.next E (.call 0 0)) ∧
      ¬SingleWriter (s.next E (.call 1 1)) := by
  intro E s
  have h0 : ((transferSystem E).restrict (TransferState.keeps E)).Reachable .ofZero :=
    .init TransferState.ofZero_fresh
  have h1 : ((transferSystem E).restrict (TransferState.keeps E)).Reachable s :=
    h0.run [.call 2 1, .call 0 0, .sync 1, .ret 0]
      ⟨⟨rfl, .inr ⟨by decide, by decide, by decide⟩⟩, ⟨rfl, .inl rfl⟩, ⟨trivial, trivial⟩,
        ⟨List.cons_ne_nil _ _, trivial⟩, trivial⟩
  obtain ⟨hw, hcall⟩ := single_writer_iff E h1
  refine ⟨hw, rfl, (hcall 0 0 rfl).mpr (.inl rfl), fun h => ?_⟩
  rcases (hcall 1 1 rfl).mp h with h | h
  · exact absurd h (by decide)
  · exact h.1 rfl

/-- Thread 1 asks for the area: both threads have it mapped, and when thread 0 has
handled the request it aborts. -/
theorem transfer_two_writers :
    let E : TransferEnv := ⟨some 0, fun _ => 0⟩
    ∃ s s', (transferSystem E).Reachable s ∧ (transferSystem E).Reachable s' ∧
      s.mapped 0 = true ∧ s.mapped 1 = true ∧ s'.aborted = true ∧
      ¬ SingleWriter s ∧ ¬ SingleWriter s' := by
  intro E
  have h0 : (transferSystem E).Reachable .ofZero := .init TransferState.ofZero_fresh
  have h1 := h0.step (a := TransferAct.call 1 1) rfl
  have h2 := h1.step (a := TransferAct.service 0 1) (List.Mem.head _)
  have h3 := h2.step (a := TransferAct.ret 0) (List.cons_ne_nil _ _)
  refine ⟨_, _, h1, h3, rfl, rfl, rfl, fun hw => ?_, fun hw => ?_⟩
  · exact absurd (hw.single 0 1 rfl rfl) (by decide)
  · exact absurd hw.aborts (by decide)

end Tasvir
