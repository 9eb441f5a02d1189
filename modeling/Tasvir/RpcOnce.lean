import Mathlib.Tactic
import Tasvir.Container
import Tasvir.Machine
import Tasvir.RpcCalls
import Tasvir.ThreadTable

/-! Blocking RPC and its resends, seen from the owner that executes the requests.
Ids, slots and messages are those of `RpcState`. Each resend is a request of its
own, the owner remembers none of them, and the caller only looks at the slot of
the latest one. -/
namespace Tasvir

/-- The owner of an area: what executing the function on given arguments does and
returns, what else may happen to its state, and the states it starts in. -/
structure Owner (σ X V : Type) where
  fn : X → σ → σ × V
  env : σ → σ → Prop
  init : σ → Prop

namespace Owner
variable {σ X V : Type} (o : Owner σ X V)

/-- One change of the owner's state. -/
def Changes (st st' : σ) : Prop := o.env st st' ∨ ∃ x, st' = (o.fn x st).1

/-- From `st` on, the call with arguments `x` can only return `v`. -/
def Settled (x : X) (v : V) (st : σ) : Prop :=
  ∀ st', Relation.ReflTransGen o.Changes st st' → (o.fn x st').2 = v

/-- A call that, executed again at any later time, returns what it did the first time. -/
def Repeatable (x : X) : Prop := ∀ st, o.Settled x (o.fn x st).2 (o.fn x st).1

theorem Settled.later {o : Owner σ X V} {x : X} {v : V} {st st' : σ} (h : o.Settled x v st)
    (hc : o.Changes st st') : o.Settled x v st' :=
  fun st'' hl => h st'' (.head hc hl)

end Owner

/-- The RPC layer and the owner. A call is named by the number of its first request;
for each call its arguments, the executions so far as the state met and the value
returned, the value that `tasvir_rpc_wait` returned with 0, and whether it returned
-1; for each request the call it belongs to and the value in its response. -/
structure OnceState (σ X V : Type) where
  rpc : RpcState := { procs := fun _ => {} }
  st : σ
  first : ℕ → ℕ := id
  value : ℕ → Option V := fun _ => none
  arg : ℕ → Option X := fun _ => none
  execs : ℕ → List (σ × V) := fun _ => []
  result : ℕ → Option V := fun _ => none
  gaveUp : ℕ → Bool := fun _ => false

inductive OnceAct (σ X : Type)
  | env (st : σ)
  /-- process `p` starts a call on area `d` -/
  | call (p d : ℕ) (x : X)
  | act (a : RpcAct)

namespace OnceState
variable {σ X V : Type} (o : Owner σ X V)

def pre (s : OnceState σ X V) : OnceAct σ X → Prop
  | .env st => o.env s.st st
  | .call p d _ => s.rpc.pre (.rpc p d)
  | .act (.rpc _ _) => False
  | .act a => s.rpc.pre a

/-- What a step means for the calls. -/
def note (s : OnceState σ X V) : RpcAct → OnceState σ X V
  | .resend _ w true => { s with first := Function.update s.first s.rpc.calls (s.first w.call) }
  -- the resend fails, and so does the call
  | .resend _ w false => { s with gaveUp := Function.update s.gaveUp (s.first w.call) true }
  | .leave _ w => { s with gaveUp := Function.update s.gaveUp (s.first w.call) true }
  | .execute q =>
    match s.arg (s.first q.call) with
    | none => s
    | some x =>
      { s with
        st := (o.fn x s.st).1
        value := Function.update s.value q.call (some (o.fn x s.st).2)
        execs := Function.update s.execs (s.first q.call)
          (s.execs (s.first q.call) ++ [(s.st, (o.fn x s.st).2)]) }
  | .returnOk _ w r =>
    { s with result := Function.update s.result (s.first w.call) (s.value r.call) }
  | _ => s

def next (s : OnceState σ X V) : OnceAct σ X → OnceState σ X V
  | .env st => { s with st }
  | .call p d x =>
    { s with
      rpc := s.rpc.next (.rpc p d)
      first := Function.update s.first s.rpc.calls s.rpc.calls
      arg := Function.update s.arg s.rpc.calls (some x) }
  | .act a => { s.note o a with rpc := s.rpc.next a }

/-- A call that is not repeatable is executed at most once, and the value that a
call returns is that of its first execution. -/
structure AtMostOnce (s : OnceState σ X V) (c : ℕ) : Prop where
  once : ∀ x, s.arg c = some x → ¬o.Repeatable x → (s.execs c).length ≤ 1
  result : ∀ v, s.result c = some v → (s.execs c).head?.map Prod.snd = some v

/-- All requests of the call so far were lost before they were executed. -/
def Unserved (s : OnceState σ X V) (c : ℕ) : Prop :=
  s.execs c = [] ∧ ∀ q ∈ s.rpc.reqs, s.first q.call ≠ c

/-- The condition on a step: that of the RPC layer, and a call that is not repeatable
is sent again only when its earlier requests were lost. -/
def safe (s : OnceState σ X V) : OnceAct σ X → Prop
  | .env _ => True
  | .call p d _ => s.rpc.fresh (.rpc p d)
  | .act (.resend p w true) => s.rpc.fresh (.resend p w true) ∧
      ∀ x, s.arg (s.first w.call) = some x → o.Repeatable x ∨ s.Unserved (s.first w.call)
  | .act a => s.rpc.fresh a

/-- A call returns -1 only when all its requests were lost. -/
def served (s : OnceState σ X V) : OnceAct σ X → Prop
  | .act (.leave _ w) => s.Unserved (s.first w.call)
  | .act (.resend _ w false) => s.Unserved (s.first w.call)
  | _ => True

end OnceState

def onceSystem {σ X V : Type} (o : Owner σ X V) :
    Machine.System (OnceState σ X V) (OnceAct σ X) where
  init := fun s => ∃ st, o.init st ∧ s = { st }
  pre := OnceState.pre o
  next := OnceState.next o

/-- What holds in every state reached. -/
structure OnceInv {σ X V : Type} (o : Owner σ X V) (s : OnceState σ X V) : Prop where
  rpc : RpcInv s.rpc
  first_le : ∀ n, s.first n ≤ n
  arg_lt : ∀ c x, s.arg c = some x → c < s.rpc.calls
  call_arg : ∀ n < s.rpc.calls, ∃ x, s.arg (s.first n) = some x
  none_exec : ∀ c, s.arg c = none → s.execs c = []
  value_exec : ∀ n v, s.value n = some v →
    n < s.rpc.calls ∧ ∃ e ∈ s.execs (s.first n), e.2 = v
  result_exec : ∀ c v, s.result c = some v → ∃ e ∈ s.execs c, e.2 = v
  once : ∀ c x, s.arg c = some x → ¬o.Repeatable x →
    (s.execs c).length+(s.rpc.reqs.filter (fun q => s.first q.call = c)).length ≤ 1
  same : ∀ c x, s.arg c = some x → o.Repeatable x → ∀ e ∈ s.execs c,
    (s.execs c).head?.map Prod.snd = some e.2 ∧ o.Settled x e.2 s.st
  /-- a call has one request at a time that somebody waits for -/
  single : ∀ p p', ∀ e ∈ (s.rpc.procs p).outstanding, ∀ e' ∈ (s.rpc.procs p').outstanding,
    s.first e.2 = s.first e'.2 → p = p' ∧ e = e'

section
variable {σ X V : Type} {o : Owner σ X V} {s : OnceState σ X V}

theorem OnceInv.env (hi : OnceInv o s) (st : σ) (hc : o.Changes s.st st) :
    OnceInv o { s with st } := by
  constructor
  case same =>
    intro c x hx hr e he
    obtain ⟨hh, hs⟩ := hi.same c x hx hr e he
    exact ⟨hh, hs.later hc⟩
  · exact hi.rpc
  · exact hi.first_le
  · exact hi.arg_lt
  · exact hi.call_arg
  · exact hi.none_exec
  · exact hi.value_exec
  · exact hi.result_exec
  · exact hi.once
  · exact hi.single

/-- A step of the RPC layer that sends nothing. -/
theorem OnceInv.quiet (hi : OnceInv o s) (a : RpcAct) (hp : s.rpc.pre a) (hf : s.rpc.fresh a)
    (ha : a.sends = false) : OnceInv o { s with rpc := s.rpc.next a } := by
  obtain ⟨hreqs, hcalls⟩ := s.rpc.reqs_next a ha
  have hopen := hi.rpc.outstanding_next a hp ha
  constructor
  case rpc => exact hi.rpc.step a hp hf
  case once =>
    intro c x hx hrep
    have ho := hi.once c x hx hrep
    have hlen := (hreqs.filter (fun q => s.first q.call = c)).length_le
    simp only at hlen ⊢
    omega
  case single =>
    intro p p' e he e' he'
    exact hi.single p p' e (hopen p e he) e' (hopen p' e' he')
  all_goals simp only [hcalls]
  · exact hi.first_le
  · exact hi.arg_lt
  · exact hi.call_arg
  · exact hi.none_exec
  · exact hi.value_exec
  · exact hi.result_exec
  · exact hi.same

/-- A request that is sent, of a new call or of an old one of which no other request
can take effect. -/
theorem OnceInv.sent (hi : OnceInv o s) (rpc : RpcState) (hr : RpcInv rpc) (q : RpcRequest)
    (hq : q.call = s.rpc.calls) (hreqs : rpc.reqs = q :: s.rpc.reqs)
    (hcalls : rpc.calls = s.rpc.calls+1) (c : ℕ) (hc : c ≤ s.rpc.calls) (x : X)
    (arg : ℕ → Option X) (harg : arg = Function.update s.arg c (some x))
    (hold : ∀ y, s.arg c = some y → y = x) (p : ℕ)
    (hopen : ∀ p', ∀ e ∈ (rpc.procs p').outstanding, (p' = p ∧ e = (q.id, s.rpc.calls)) ∨
      (e ∈ (s.rpc.procs p').outstanding ∧ s.first e.2 ≠ c))
    (hsafe : o.Repeatable x ∨ s.Unserved c) :
    OnceInv o { s with rpc, arg, first := Function.update s.first s.rpc.calls c } := by
  -- requests in flight keep their calls
  have hfirst : ∀ q ∈ s.rpc.reqs,
      Function.update s.first s.rpc.calls c q.call = s.first q.call := by
    intro q hq
    have hlt := hi.rpc.req_lt q hq
    exact Function.update_of_ne (by omega) _ _
  have hfilter : ∀ c', s.rpc.reqs.filter
      (fun q => Function.update s.first s.rpc.calls c q.call = c') =
      s.rpc.reqs.filter (fun q => s.first q.call = c') := by
    intro c'
    apply List.filter_congr
    intro q hq
    rw [hfirst q hq]
  have hexec : s.arg c = none → s.execs c = [] := hi.none_exec c
  subst harg
  constructor
  case rpc => exact hr
  case once =>
    intro c' x' hx' hrep
    simp only [hreqs, List.filter_cons, hq, Function.update_self, hfilter] at hx' ⊢
    rcases eq_or_ne c' c with rfl | hne
    · rw [Function.update_self] at hx'
      cases hx'
      obtain ⟨he, hu⟩ := hsafe.resolve_left hrep
      have hnil : s.rpc.reqs.filter (fun q => s.first q.call = c') = [] := by simpa using hu
      simp [he, hnil]
    · rw [Function.update_of_ne hne] at hx'
      have ho := hi.once c' x' hx' hrep
      simpa [Ne.symm hne] using ho
  case same =>
    intro c' x' hx' hrep e he
    simp only at hx' he ⊢
    rcases eq_or_ne c' c with rfl | hne
    · rw [Function.update_self] at hx'
      cases hx'
      cases ha : s.arg c' with
      | none =>
        rw [hexec ha] at he
        cases he
      | some y =>
        have hy := hold y ha
        rw [hy] at ha
        exact hi.same c' x ha hrep e he
    · rw [Function.update_of_ne hne] at hx'
      exact hi.same c' x' hx' hrep e he
  case value_exec =>
    intro n v hv
    obtain ⟨hn, e, he, hev⟩ := hi.value_exec n v hv
    simp only [hcalls]
    refine ⟨by omega, e, ?_, hev⟩
    rw [Function.update_of_ne (by omega)]
    exact he
  case result_exec => exact hi.result_exec
  case single =>
    -- what was outstanding before keeps its call, and is none of `c`
    have hcall : ∀ p', ∀ e ∈ (s.rpc.procs p').outstanding,
        Function.update s.first s.rpc.calls c e.2 = s.first e.2 := by
      intro p' e he
      have hlt := hi.rpc.outstanding_lt p' e he
      exact Function.update_of_ne (by omega) _ _
    intro p1 p2 e1 he1 e2 he2 heq
    simp only at he1 he2 heq
    rcases hopen p1 e1 he1 with ⟨rfl, rfl⟩ | ⟨ho1, hn1⟩
    · rcases hopen p2 e2 he2 with ⟨rfl, rfl⟩ | ⟨ho2, hn2⟩
      · exact ⟨rfl, rfl⟩
      · rw [Function.update_self, hcall p2 e2 ho2] at heq
        exact absurd heq.symm hn2
    · rw [hcall p1 e1 ho1] at heq
      rcases hopen p2 e2 he2 with ⟨rfl, rfl⟩ | ⟨ho2, -⟩
      · rw [Function.update_self] at heq
        exact absurd heq hn1
      · rw [hcall p2 e2 ho2] at heq
        exact hi.single p1 p2 e1 ho1 e2 ho2 heq
  case call_arg =>
    intro n hn
    simp only [hcalls] at hn ⊢
    rcases eq_or_ne n s.rpc.calls with rfl | hne
    · exact ⟨x, by rw [Function.update_self, Function.update_self]⟩
    · rw [Function.update_of_ne hne]
      rcases eq_or_ne (s.first n) c with heq | hnc
      · exact ⟨x, by rw [heq, Function.update_self]⟩
      · rw [Function.update_of_ne hnc]
        exact hi.call_arg n (by omega)
  all_goals simp only [hcalls, Function.update_apply]
  all_goals grind [OnceInv]

/-- After `w` is left, nobody waits for its call. -/
theorem OnceInv.left (hi : OnceInv o s) {p : ℕ} {w : RpcWait} (hw : w ∈ (s.rpc.procs p).waiting)
    {q : ℕ} {e : ℕ × ℕ}
    (he : e ∈ ((s.rpc.setProc p ((s.rpc.procs p).leave w)).procs q).outstanding) :
    e ∈ (s.rpc.procs q).outstanding ∧ s.first e.2 ≠ s.first w.call := by
  have hold := RpcState.outstanding_setProc ((s.rpc.procs p).leave_outstanding w).subset q e he
  refine ⟨hold, ?_⟩
  intro hc
  obtain ⟨rfl, rfl⟩ := hi.single q p e hold _ (RpcProc.waiting_outstanding hw) hc
  simp only [RpcState.setProc, Function.update_self] at he
  exact hi.rpc.leave_not_mem hw he

theorem OnceInv.call (hi : OnceInv o s) (p d : ℕ) (x : X) (hp : s.pre o (.call p d x))
    (hs : s.safe o (.call p d x)) : OnceInv o (s.next o (.call p d x)) := by
  have hr := hi.rpc.step (.rpc p d) hp hs
  have hnone : s.arg s.rpc.calls = none := by
    cases ha : s.arg s.rpc.calls with
    | none => rfl
    | some y => exact absurd (hi.arg_lt _ y ha) (lt_irrefl _)
  refine hi.sent (s.rpc.next (.rpc p d)) hr _ rfl rfl rfl s.rpc.calls le_rfl x _ rfl ?_ p ?_ ?_
  · intro y hy
    rw [hnone] at hy
    cases hy
  · intro q e he
    rcases RpcState.outstanding_send he with h | h
    · exact Or.inl h
    · have hlt := hi.rpc.outstanding_lt q e h
      have hle := hi.first_le e.2
      exact Or.inr ⟨h, by omega⟩
  · right
    refine ⟨hi.none_exec _ hnone, ?_⟩
    intro q hq h
    have hlt := hi.rpc.req_lt q hq
    have hle := hi.first_le q.call
    omega

theorem OnceInv.resend (hi : OnceInv o s) (p : ℕ) (w : RpcWait)
    (hp : s.rpc.pre (.resend p w true)) (hs : s.safe o (.act (.resend p w true))) :
    OnceInv o (s.next o (.act (.resend p w true))) := by
  have hr := hi.rpc.step _ hp hs.1
  have hlt := hi.rpc.outstanding_lt p _ (RpcProc.waiting_outstanding hp.2.1)
  obtain ⟨x, hx⟩ := hi.call_arg w.call hlt
  have hle := hi.first_le w.call
  have hsame : s.arg = Function.update s.arg (s.first w.call) (some x) := by
    rw [← hx, Function.update_eq_self]
  have hwait := RpcProc.waiting_outstanding hp.2.1
  refine hi.sent (s.rpc.next (.resend p w true)) hr _ rfl rfl rfl (s.first w.call)
    (by simp only at hlt; omega) x _ hsame ?_ p ?_ ?_
  · intro y hy
    rw [hx] at hy
    exact (Option.some.inj hy).symm
  · intro q e he
    rcases RpcState.outstanding_send he with ⟨hq, h⟩ | h
    · refine Or.inl ⟨hq, ?_⟩
      rw [h]
      simp [RpcState.setProc]
    · exact Or.inr (hi.left hp.2.1 h)
  · exact hs.2 x hx

/-- An execution uses up its request; of a repeatable call it returns the same value again. -/
theorem OnceInv.execute (hi : OnceInv o s) (q : RpcRequest) (hq : q ∈ s.rpc.reqs) :
    OnceInv o (s.next o (.act (.execute q))) := by
  have hr := hi.rpc.execute q hq
  obtain ⟨x, hx⟩ := hi.call_arg q.call (hi.rpc.req_lt q hq)
  have hlt := hi.rpc.req_lt q hq
  have hch := hi.env (o.fn x s.st).1 (Or.inr ⟨x, rfl⟩)
  -- executions are only added
  have hgrow (c : ℕ) (v : V) (h : ∃ e ∈ s.execs c, e.2 = v) :
      ∃ e ∈ Function.update s.execs (s.first q.call)
        (s.execs (s.first q.call) ++ [(s.st, (o.fn x s.st).2)]) c, e.2 = v := by
    obtain ⟨e, he, hv⟩ := h
    refine ⟨e, ?_, hv⟩
    rcases eq_or_ne c (s.first q.call) with rfl | hne
    · rw [Function.update_self]
      exact List.mem_append_left _ he
    · rw [Function.update_of_ne hne]
      exact he
  simp only [OnceState.next, OnceState.note, hx]
  constructor
  case rpc => exact hr
  case once =>
    intro c x' hx' hrep
    have ho := hi.once c x' hx' hrep
    have hlen : ((s.rpc.reqs.erase q).filter fun q => s.first q.call = c).length +
        (if c = s.first q.call then 1 else 0) ≤
        (s.rpc.reqs.filter fun q => s.first q.call = c).length := by
      rw [← List.erase_filter]
      split
      case isTrue h =>
        have hmem : q ∈ s.rpc.reqs.filter fun q => s.first q.call = c := by simp [hq, h]
        have := List.length_erase_of_mem hmem
        have := List.length_pos_of_mem hmem
        omega
      case isFalse => exact List.erase_sublist.length_le
    simp only [RpcState.next, Function.update_apply]
    split at hlen
    case isTrue h =>
      simp only [h, ↓reduceIte, List.length_append, List.length_singleton] at ho hlen ⊢
      omega
    case isFalse h =>
      simp only [h, ↓reduceIte]
      omega
  case same =>
    intro c x' hx' hrep e he
    simp only [Function.update_apply] at he ⊢
    split at he
    case isTrue h =>
      subst h
      rw [hx] at hx'
      cases hx'
      simp only [↓reduceIte]
      cases hl : s.execs (s.first q.call) with
      | nil =>
        rw [hl, List.nil_append, List.mem_singleton] at he
        rw [he]
        exact ⟨rfl, hrep s.st⟩
      | cons e0 es =>
        -- the first value is settled, so this execution returned it again
        obtain ⟨-, hset⟩ := hi.same _ x hx hrep e0 (by rw [hl]; exact List.mem_cons_self)
        have hagain : (o.fn x s.st).2 = e0.2 := hset s.st .refl
        have hv0 : e.2 = e0.2 := by
          rcases List.mem_append.mp he with he | he
          · have hhead := (hi.same _ x hx hrep e he).1
            rw [hl] at hhead
            exact (Option.some.inj hhead).symm
          · rw [List.mem_singleton.mp he]
            exact hagain
        rw [hv0]
        exact ⟨rfl, hset.later (Or.inr ⟨x, rfl⟩)⟩
    case isFalse h =>
      simp only [h, ↓reduceIte]
      exact hch.same c x' hx' hrep e he
  case first_le => exact hi.first_le
  case arg_lt => exact hi.arg_lt
  case call_arg => exact hi.call_arg
  case single => exact hi.single
  case result_exec =>
    intro c v hv
    exact hgrow c v (hi.result_exec c v hv)
  case value_exec =>
    intro n v hv
    rcases eq_or_ne n q.call with rfl | hne
    · simp only [Function.update_self] at hv ⊢
      refine ⟨hlt, (s.st, (o.fn x s.st).2), ?_, Option.some.inj hv⟩
      exact List.mem_append_right _ (List.mem_singleton_self _)
    · simp only [Function.update_of_ne hne] at hv
      obtain ⟨hn, he⟩ := hi.value_exec n v hv
      exact ⟨hn, hgrow _ v he⟩
  case none_exec =>
    intro c hc
    rcases eq_or_ne c (s.first q.call) with rfl | hne
    · simp only [hx] at hc
      cases hc
    · simp only [Function.update_of_ne hne]
      exact hi.none_exec c hc

/-- The value that a call returns is that of the request it waited for. -/
theorem OnceInv.returnOk (hi : OnceInv o s) (p : ℕ) (w : RpcWait) (r : RpcResponse)
    (hp : s.rpc.pre (.returnOk p w r)) : OnceInv o (s.next o (.act (.returnOk p w r))) := by
  have hcall : r.call = w.call := hi.rpc.sound p w hp.2.1 r hp.2.2.2.1
  have hq := hi.quiet (.returnOk p w r) hp trivial rfl
  constructor
  case result_exec =>
    intro c v hv
    simp only [OnceState.next, OnceState.note, Function.update_apply, hcall] at hv ⊢
    split at hv
    case isTrue h =>
      rw [h]
      exact (hi.value_exec w.call v hv).2
    case isFalse => exact hi.result_exec c v hv
  · exact hq.rpc
  · exact hq.first_le
  · exact hq.arg_lt
  · exact hq.call_arg
  · exact hq.none_exec
  · exact hq.value_exec
  · exact hq.once
  · exact hq.same
  · exact hq.single

theorem OnceInv.giveUp (hi : OnceInv o s) (gaveUp : ℕ → Bool) : OnceInv o { s with gaveUp } :=
  ⟨hi.rpc, hi.first_le, hi.arg_lt, hi.call_arg, hi.none_exec, hi.value_exec, hi.result_exec,
    hi.once, hi.same, hi.single⟩

theorem OnceInv.act (hi : OnceInv o s) (a : RpcAct) (hp : s.pre o (.act a))
    (hs : s.safe o (.act a)) : OnceInv o (s.next o (.act a)) := by
  cases a
  case rpc => exact hp.elim
  case execute q => exact hi.execute q hp
  case returnOk p w r => exact hi.returnOk p w r hp
  case leave p w => exact (hi.quiet (.leave p w) hp hs rfl).giveUp _
  case resend p w sent =>
    cases sent
    case true => exact hi.resend p w hp hs
    case false => exact (hi.quiet (.resend p w false) hp hs rfl).giveUp _
  all_goals exact hi.quiet _ hp hs rfl

theorem OnceInv.step (hi : OnceInv o s) (a : OnceAct σ X) (hp : s.pre o a) (hs : s.safe o a) :
    OnceInv o (s.next o a) := by
  cases a with
  | env st => exact hi.env st (Or.inl hp)
  | call p d x => exact hi.call p d x hp hs
  | act a => exact hi.act a hp hs

theorem onceInv_reachable (h : ((onceSystem o).restrict (OnceState.safe o)).Reachable s) :
    OnceInv o s := by
  apply h.invariant
  · rintro s ⟨st, -, rfl⟩
    have hr : RpcInv { procs := fun _ => {} } := rpcInv_reachable (.init rfl)
    constructor <;> simp [hr, RpcProc.outstanding]
  · intro s a hi hp
    exact hi.step a hp.1 hp.2

/-- Whatever a call returned is what all its executions returned. -/
theorem OnceInv.result_eq (hi : OnceInv o s) {c : ℕ} {v : V} (hv : s.result c = some v) :
    (s.execs c).head?.map Prod.snd = some v ∧ ∀ e ∈ s.execs c, e.2 = v := by
  obtain ⟨e, he, rfl⟩ := hi.result_exec c v hv
  cases hx : s.arg c with
  | none =>
    rw [hi.none_exec c hx] at he
    cases he
  | some x =>
    by_cases hr : o.Repeatable x
    · have hhead := (hi.same c x hx hr e he).1
      refine ⟨hhead, ?_⟩
      intro e' he'
      have hhead' := (hi.same c x hx hr e' he').1
      rw [hhead] at hhead'
      exact (Option.some.inj hhead').symm
    · -- there is no second execution
      have ho := hi.once c x hx hr
      obtain ⟨e1, he1⟩ := List.length_eq_one_iff.mp
        (show (s.execs c).length = 1 from by have := List.length_pos_of_mem he; omega)
      rw [he1, List.mem_singleton] at he
      rw [he1, he]
      exact ⟨rfl, fun e' he' => by rw [List.mem_singleton.mp he']⟩

theorem OnceInv.atMostOnce (hi : OnceInv o s) (c : ℕ) : s.AtMostOnce o c := by
  constructor
  · intro x hx hr
    have ho := hi.once c x hx hr
    omega
  · exact fun v hv => (hi.result_eq hv).1

/-- A call that returned -1 has no request left that could still take effect. -/
def OnceState.Abandoned (s : OnceState σ X V) : Prop :=
  ∀ c, s.gaveUp c = true → c < s.rpc.calls ∧ s.Unserved c ∧
    ∀ p, ∀ e ∈ (s.rpc.procs p).outstanding, s.first e.2 ≠ c

theorem OnceState.Abandoned.quiet (ha : s.Abandoned) (hi : OnceInv o s) (a : RpcAct)
    (hp : s.rpc.pre a) (hs : a.sends = false) :
    OnceState.Abandoned { s with rpc := s.rpc.next a } := by
  obtain ⟨hreqs, hcalls⟩ := s.rpc.reqs_next a hs
  intro c hc
  obtain ⟨hlt, ⟨hexec, hreq⟩, hopen⟩ := ha c hc
  refine ⟨by simp only [hcalls]; exact hlt, ⟨hexec, ?_⟩, ?_⟩
  · exact fun q hq => hreq q (hreqs.subset hq)
  · exact fun p e he => hopen p e (hi.rpc.outstanding_next a hp hs p e he)

/-- The call of a wait that is left returns -1. -/
theorem OnceState.Abandoned.giveUp (ha : s.Abandoned) (hi : OnceInv o s) (a : RpcAct) {p : ℕ}
    {w : RpcWait} (hw : w ∈ (s.rpc.procs p).waiting) (hp : s.rpc.pre a) (hs : a.sends = false)
    (hu : s.Unserved (s.first w.call))
    (hleft : ∀ q, ∀ e ∈ ((s.rpc.next a).procs q).outstanding,
      e ∈ ((s.rpc.setProc p ((s.rpc.procs p).leave w)).procs q).outstanding) :
    OnceState.Abandoned { s with
      rpc := s.rpc.next a
      gaveUp := Function.update s.gaveUp (s.first w.call) true } := by
  obtain ⟨hreqs, hcalls⟩ := s.rpc.reqs_next a hs
  have hlt := hi.rpc.outstanding_lt p _ (RpcProc.waiting_outstanding hw)
  have hle := hi.first_le w.call
  intro c hc
  rcases eq_or_ne c (s.first w.call) with rfl | hne
  · refine ⟨by simp only [hcalls] at hlt ⊢; omega, ⟨hu.1, ?_⟩, ?_⟩
    · exact fun q hq => hu.2 q (hreqs.subset hq)
    · exact fun q e he => (hi.left hw (hleft q e he)).2
  · simp only [Function.update_of_ne hne] at hc
    exact (ha.quiet hi a hp hs) c hc

/-- A request that is sent is not of a call that returned. -/
theorem OnceState.Abandoned.sent (ha : s.Abandoned) (hi : OnceInv o s) (rpc : RpcState)
    (q : RpcRequest) (hq : q.call = s.rpc.calls) (hreqs : rpc.reqs = q :: s.rpc.reqs)
    (hcalls : rpc.calls = s.rpc.calls+1) (c : ℕ) (arg : ℕ → Option X)
    (hopen : ∀ p, ∀ e ∈ (rpc.procs p).outstanding,
      e.2 = s.rpc.calls ∨ e ∈ (s.rpc.procs p).outstanding)
    (hc : s.gaveUp c = false ∨ c = s.rpc.calls) :
    OnceState.Abandoned
      { s with rpc, arg, first := Function.update s.first s.rpc.calls c } := by
  intro c' hc'
  obtain ⟨hlt, ⟨hexec, hreq⟩, hout⟩ := ha c' hc'
  have hne : c ≠ c' := by
    rintro rfl
    rcases hc with h | h
    · rw [h] at hc'
      cases hc'
    · omega
  refine ⟨by simp only [hcalls]; omega, ⟨hexec, ?_⟩, ?_⟩
  · intro q' hq'
    simp only [hreqs] at hq'
    rcases List.mem_cons.mp hq' with rfl | hq'
    · simp only [hq, Function.update_self]
      exact hne
    · have := hi.rpc.req_lt q' hq'
      simp only [Function.update_of_ne (show q'.call ≠ s.rpc.calls from by omega)]
      exact hreq q' hq'
  · intro p e he
    rcases hopen p e he with h | h
    · simp only [h, Function.update_self]
      exact hne
    · have := hi.rpc.outstanding_lt p e h
      simp only [Function.update_of_ne (show e.2 ≠ s.rpc.calls from by omega)]
      exact hout p e h

theorem OnceState.Abandoned.step (ha : s.Abandoned) (hi : OnceInv o s) (a : OnceAct σ X)
    (hp : s.pre o a) (hs : s.safe o a) (hu : s.served a) : (s.next o a).Abandoned := by
  cases a with
  | env st => exact ha
  | call p d x =>
    apply ha.sent hi (s.rpc.next (.rpc p d)) _ rfl rfl rfl s.rpc.calls
    · intro q e he
      rcases RpcState.outstanding_send he with ⟨-, rfl⟩ | h
      · exact Or.inl rfl
      · exact Or.inr h
    · exact Or.inr rfl
  | act a =>
    cases a
    case rpc => exact hp.elim
    case leave p w => exact ha.giveUp hi (.leave p w) hp.2 hp rfl hu fun _ _ he => he
    case resend p w sent =>
      cases sent
      case true =>
        apply ha.sent hi (s.rpc.next (.resend p w true)) _ rfl rfl rfl (s.first w.call) s.arg
        · intro q e he
          rcases RpcState.outstanding_send he with ⟨-, rfl⟩ | h
          · exact Or.inl rfl
          · exact Or.inr (hi.left hp.2.1 h).1
        · -- somebody waits for this call
          left
          by_contra hg
          have hout := (ha _ (by simpa using hg)).2.2 p _ (RpcProc.waiting_outstanding hp.2.1)
          exact hout rfl
      case false =>
        apply ha.giveUp hi (.resend p w false) hp.2.1 hp rfl hu
        intro q e he
        revert e
        apply RpcState.outstanding_setProc
        exact fun e he => he
    case execute q =>
      obtain ⟨x, hx⟩ := hi.call_arg q.call (hi.rpc.req_lt q hp)
      have hq := ha.quiet hi (.execute q) hp rfl
      simp only [OnceState.next, OnceState.note, hx]
      intro c hc
      obtain ⟨hlt, ⟨hexec, hreq⟩, hout⟩ := hq c hc
      have hne : c ≠ s.first q.call := by
        intro h
        exact (ha c hc).2.1.2 q hp h.symm
      refine ⟨hlt, ⟨?_, hreq⟩, hout⟩
      simp only [Function.update_of_ne hne]
      exact hexec
    all_goals exact ha.quiet hi _ hp rfl

theorem abandoned_reachable
    (h : (((onceSystem o).restrict (OnceState.safe o)).restrict OnceState.served).Reachable s) :
    s.Abandoned := by
  have hboth : OnceInv o s ∧ s.Abandoned := by
    apply h.invariant
    · rintro s ⟨st, hst, rfl⟩
      exact ⟨onceInv_reachable (.init ⟨st, hst, rfl⟩), fun c hc => by cases hc⟩
    · rintro s a ⟨hi, ha⟩ ⟨⟨hp, hs⟩, hu⟩
      exact ⟨hi.step a hp hs, ha.step hi a hp hs hu⟩
  exact hboth.2

end

/-- The owner of a container executing `tasvir_new_alloc_desc`. Its clock, its log
and the container may change in any way in between. -/
def containerOwner : Owner (AllocEnv × Words × Container) Desc (Option ℕ) where
  fn := fun desc st =>
    let r := st.2.2.tasvirNewAllocDesc st.1 st.2.1 desc
    ((st.1, r.1, r.2.1), r.2.2)
  env := fun _ _ => True
  init := fun _ => True

/-- `tasvir_new_alloc_desc` returns NULL to the caller of `tasvir_new`: the RPC
failed, or its value is NULL. -/
def OnceState.GotNull {σ X V : Type} (s : OnceState σ X (Option V)) (c : ℕ) : Prop :=
  s.gaveUp c = true ∨ s.result c = some none

/-- The daemon executing `tasvir_init_thread`, with the table and the memory for the
two rings. Nothing but this function puts a slot in the state BOOTING. -/
def daemonOwner : Owner (ThreadTable × Bool × Bool) ℕ (Option ℕ) where
  fn := fun pid st =>
    let r := st.1.tasvirInitThread pid st.2
    ((r.1, st.2), r.2)
  env := fun st st' => ∀ i, (st'.1.tdata i).state = .booting → (st.1.tdata i).state = .booting
  init := fun st => ∀ i, (st.1.tdata i).state ≠ .booting

/-- The slots that the executions of call `c` have put in the state BOOTING. -/
def OnceState.bootedFor {V : Type} (s : OnceState (ThreadTable × Bool × Bool) ℕ V) (c : ℕ) :
    List ℕ :=
  (s.execs c).filterMap fun e => e.1.1.freeSlot

/-- A slot that starts booting is the free one that `tasvir_init_thread` has found. -/
theorem ThreadTable.booting_of_initThread (t : ThreadTable) (pid : ℕ) (mem : Bool × Bool) (i : ℕ)
    (h : ((t.tasvirInitThread pid mem).1.tdata i).state = .booting) :
    (t.tdata i).state = .booting ∨ t.freeSlot = some i := by
  unfold ThreadTable.tasvirInitThread at h
  cases hf : t.freeSlot with
  | none =>
    rw [hf] at h
    exact Or.inl h
  | some idx =>
    rw [hf] at h
    rcases eq_or_ne i idx with rfl | hne
    · exact Or.inr rfl
    · left
      simpa [Function.update_of_ne hne] using h

/-- Every booting slot was given to a call. -/
theorem booting_bootedFor (s : OnceState (ThreadTable × Bool × Bool) ℕ (Option ℕ))
    (h : (onceSystem daemonOwner).Reachable s) :
    ∀ i, (s.st.1.tdata i).state = .booting → ∃ c, i ∈ s.bootedFor c := by
  apply h.invariant
  · rintro s ⟨st, hst, rfl⟩ i hb
    exact absurd hb (hst i)
  · intro s a hi hp i hb
    cases a with
    | env st => exact hi i (hp i hb)
    | call p d x => exact hi i hb
    | act a =>
      cases a
      case execute q =>
        cases hx : s.arg (s.first q.call) with
        | none =>
          simp only [onceSystem, OnceState.next, OnceState.note, hx, OnceState.bootedFor] at hb ⊢
          exact hi i hb
        | some x =>
          simp only [onceSystem, OnceState.next, OnceState.note, hx, OnceState.bootedFor] at hb ⊢
          rcases s.st.1.booting_of_initThread x s.st.2 i hb with h | h
          · obtain ⟨c, hc⟩ := hi i h
            refine ⟨c, ?_⟩
            rcases eq_or_ne c (s.first q.call) with rfl | hne
            · rw [Function.update_self, List.filterMap_append]
              exact List.mem_append_left _ hc
            · rw [Function.update_of_ne hne]
              exact hc
          · refine ⟨s.first q.call, ?_⟩
            rw [Function.update_self, List.filterMap_append]
            apply List.mem_append_right
            simp [h]
      case resend p w sent => cases sent <;> exact hi i hb
      all_goals exact hi i hb

/-- A second execution finds another slot. -/
theorem not_repeatable_initThread (pid : ℕ) : ¬daemonOwner.Repeatable pid := by
  intro h
  have hagain := h ((SlotState.booted 1).table, true, true) _ .refl
  have h1 : (daemonOwner.fn pid ((SlotState.booted 1).table, true, true)).2 = some 1 := by rfl
  have h2 : (daemonOwner.fn pid
      (daemonOwner.fn pid ((SlotState.booted 1).table, true, true)).1).2 = some 2 := by rfl
  rw [h1, h2] at hagain
  cases hagain

/-- With fresh ids, and requests that are not repeatable sent again only after the
earlier ones were lost: whatever the function and whatever else its owner does, a
blocking RPC takes effect at most once and returns the value of its first execution;
`tasvir_new` gets NULL only for a name that none of its attempts has allocated, if a
call that fails has no attempt that was or will be served; and a call of
`tasvir_init_thread` leaves at most one slot booting. -/
theorem blocking_rpc_at_most_once (c : ℕ) :
    (∀ (σ X V : Type) (o : Owner σ X V) (s : OnceState σ X V),
      ((onceSystem o).restrict (OnceState.safe o)).Reachable s → s.AtMostOnce o c) ∧
    (∀ s, (((onceSystem containerOwner).restrict (OnceState.safe containerOwner)).restrict
        OnceState.served).Reachable s → s.GotNull c → ∀ e ∈ s.execs c, e.2 = none) ∧
    (∀ s, ((onceSystem daemonOwner).restrict (OnceState.safe daemonOwner)).Reachable s →
      (s.bootedFor c).length ≤ 1 ∧
      ∀ i, (s.st.1.tdata i).state = .booting → ∃ c', i ∈ s.bootedFor c') := by
  refine ⟨?_, ?_, ?_⟩
  · intro σ X V o s h
    exact (onceInv_reachable h).atMostOnce c
  · intro s h hc e he
    -- it returned -1, and then nothing was executed, or with 0 the first value
    rcases hc with hg | hv
    · have hexec := (abandoned_reachable h c hg).2.1.1
      rw [hexec] at he
      cases he
    · exact ((onceInv_reachable h.of_restrict).result_eq hv).2 e he
  · intro s h
    refine ⟨?_, booting_bootedFor s h.of_restrict⟩
    have hi := onceInv_reachable h
    apply (List.length_filterMap_le _ _).trans
    cases hx : s.arg c with
    | none =>
      rw [hi.none_exec c hx]
      exact Nat.zero_le 1
    | some x => exact (hi.atMostOnce c).once x hx (not_repeatable_initThread x)

/-- The tid under which process 1 of node 7 sends. -/
def callerTid (booting : Bool) : Tid := if booting then bootTid 7 else runningTid

/-- Process 1 of node 7 starts, and ends its boot if it is to. -/
def callerStarts (σ X : Type) (booting : Bool) : List (OnceAct σ X) :=
  .act (.start 1 7) :: if booting then [] else [.act (.setThread 1 runningTid)]

/-- The request and its resend are both executed, and the second response is returned. -/
def resentActs {σ X : Type} (booting : Bool) (x : X) : List (OnceAct σ X) :=
  callerStarts σ X booting ++
  [.call 1 5 x, .act (.takeSlot 1 ⟨0, 0, 5, 0⟩ 0),
    .act (.resend 1 ⟨0, 5, 0⟩ true), .act (.takeSlot 1 ⟨1, 1, 5, 1⟩ 1),
    .act (.execute ⟨callerTid booting, 0, 5, 0⟩), .act (.execute ⟨callerTid booting, 1, 5, 1⟩),
    .act (.respond 1 ⟨callerTid booting, 0, 5, 0⟩), .act (.respond 1 ⟨callerTid booting, 1, 5, 1⟩),
    .act (.returnOk 1 ⟨1, 5, 1⟩ ⟨callerTid booting, 1, 5, 1⟩)]

/-- Such a run exists for every function, and its call returns the second value. -/
theorem resent_reachable {σ X V : Type} (o : Owner σ X V) (st : σ) (hst : o.init st)
    (booting : Bool) (x : X) :
    ∃ s, (onceSystem o).Reachable s ∧ s.st = (o.fn x (o.fn x st).1).1 ∧
      s.execs 0 = [(st, (o.fn x st).2), ((o.fn x st).1, (o.fn x (o.fn x st).1).2)] ∧
      s.result 0 = some (o.fn x (o.fn x st).1).2 := by
  have h0 : (onceSystem o).Reachable { st } := .init ⟨st, hst, rfl⟩
  refine ⟨_, h0.run (resentActs booting x) ?_, ?_⟩
  · cases booting
    · exact ⟨rfl, ⟨rfl, rfl, by decide, fun q => by rcases q with _ | _ | q <;> nofun⟩, rfl,
        ⟨rfl, .head _⟩, ⟨rfl, .head _, rfl⟩, ⟨rfl, .head _⟩, .tail _ (.head _), .head _,
        ⟨.tail _ (.head _), rfl, rfl⟩, ⟨.head _, rfl, rfl⟩, ⟨rfl, .head _, rfl, rfl, rfl⟩, trivial⟩
    · exact ⟨rfl, rfl, ⟨rfl, .head _⟩, ⟨rfl, .head _, rfl⟩, ⟨rfl, .head _⟩, .tail _ (.head _),
        .head _, ⟨.tail _ (.head _), rfl, rfl⟩, ⟨.head _, rfl, rfl⟩,
        ⟨rfl, .head _, rfl, rfl, rfl⟩, trivial⟩
  · cases booting <;> exact ⟨rfl, rfl, rfl⟩

theorem OnceState.not_atMostOnce {σ X V : Type} {o : Owner σ X V} {s : OnceState σ X V} {c : ℕ}
    {v1 v2 : V} (he : (s.execs c).map Prod.snd = [v1, v2]) (hr : s.result c = some v2)
    (hne : v1 ≠ v2) : ¬s.AtMostOnce o c := by
  intro h
  have hh := h.result v2 hr
  rw [← List.head?_map, he] at hh
  exact hne (Option.some.inj hh)

/-- An area of a hundred bytes, as `tasvir_new` asks for it. -/
def exampleDesc : Desc := newDesc exampleEnv { len := 100, name := Vector.replicate 32 97 }

theorem daemonOwner_booted : daemonOwner.init ((SlotState.booted 1).table, true, true) := by
  intro i
  simp only [SlotState.booted, Function.update_apply]
  split <;> intro h <;> cases h

/-- A name that its own first attempt has allocated is refused, and a process is
left with two booting slots. -/
theorem resent_request_executed_twice :
    (∃ s, (onceSystem containerOwner).Reachable s ∧
      (s.execs 0).map Prod.snd = [some 0, none] ∧ s.GotNull 0 ∧ ¬s.AtMostOnce containerOwner 0) ∧
    (∃ s, (onceSystem daemonOwner).Reachable s ∧
      s.result 0 = some (some 2) ∧ ¬s.AtMostOnce daemonOwner 0 ∧ s.bootedFor 0 = [1, 2] ∧
      (s.st.1.tdata 1).state = .booting ∧ (s.st.1.threads 1).pid = 100 ∧
      (s.st.1.tdata 2).state = .booting ∧ (s.st.1.threads 2).pid = 100) := by
  constructor
  · obtain ⟨s, hs, -, he, hv⟩ :=
      resent_reachable containerOwner (exampleEnv, fun _ => 0, exampleRoot) trivial false exampleDesc
    have h1 : (containerOwner.fn exampleDesc (exampleEnv, fun _ => 0, exampleRoot)).2 = some 0 := by
      decide +kernel
    have h2 : (containerOwner.fn exampleDesc
        (containerOwner.fn exampleDesc (exampleEnv, fun _ => 0, exampleRoot)).1).2 = none := by
      decide +kernel
    have hvals : (s.execs 0).map Prod.snd = [some 0, none] := by
      rw [he, List.map_cons, List.map_cons, h1, h2, List.map_nil]
    rw [h2] at hv
    exact ⟨s, hs, hvals, Or.inr hv, OnceState.not_atMostOnce hvals hv (by decide)⟩
  · obtain ⟨s, hs, hst, he, hv⟩ := resent_reachable daemonOwner
      ((SlotState.booted 1).table, true, true) daemonOwner_booted true 100
    have h1 : (daemonOwner.fn 100 ((SlotState.booted 1).table, true, true)).2 = some 1 := by decide
    have h2 : (daemonOwner.fn 100
        (daemonOwner.fn 100 ((SlotState.booted 1).table, true, true)).1).2 = some 2 := by decide
    have hvals : (s.execs 0).map Prod.snd = [some 1, some 2] := by
      rw [he, List.map_cons, List.map_cons, h1, h2, List.map_nil]
    rw [h2] at hv
    refine ⟨s, hs, hv, OnceState.not_atMostOnce hvals hv (by decide), ?_, ?_⟩
    · rw [OnceState.bootedFor, he]
      decide
    · rw [hst]
      decide

/-- The first request is lost, the second one is executed and answered. -/
def lostActs {σ X : Type} (booting : Bool) (x : X) : List (OnceAct σ X) :=
  callerStarts σ X booting ++
  [.call 1 5 x, .act (.takeSlot 1 ⟨0, 0, 5, 0⟩ 0), .act (.loseRequest ⟨callerTid booting, 0, 5, 0⟩),
    .act (.resend 1 ⟨0, 5, 0⟩ true), .act (.takeSlot 1 ⟨1, 1, 5, 1⟩ 1),
    .act (.execute ⟨callerTid booting, 1, 5, 1⟩), .act (.respond 1 ⟨callerTid booting, 1, 5, 1⟩),
    .act (.returnOk 1 ⟨1, 5, 1⟩ ⟨callerTid booting, 1, 5, 1⟩)]

/-- Its steps meet the conditions, for every function. -/
theorem lost_reachable {σ X V : Type} (o : Owner σ X V) (st : σ) (hst : o.init st)
    (booting : Bool) (x : X) :
    ∃ s, (((onceSystem o).restrict (OnceState.safe o)).restrict OnceState.served).Reachable s ∧
      s.st = (o.fn x st).1 ∧ s.execs 0 = [(st, (o.fn x st).2)] ∧
      s.result 0 = some (o.fn x st).2 := by
  have h0 : (((onceSystem o).restrict (OnceState.safe o)).restrict OnceState.served).Reachable
      { st } := .init ⟨st, hst, rfl⟩
  -- no request is on its way when one is sent
  have hfresh {r : RpcState} {p : ℕ} (hreq : r.reqs = []) (hresp : r.resps = [])
      (hidle : ∀ q, (r.procs q).outstanding = []) : r.FreshId p := by
    refine ⟨?_, ?_, ?_⟩
    · rw [hreq]
      nofun
    · rw [hresp]
      nofun
    · intro q _ _
      rw [hidle q]
      nofun
  refine ⟨_, h0.run (lostActs booting x) ?_, ?_⟩
  · cases booting
    · exact ⟨⟨⟨rfl, trivial⟩, trivial⟩,
        ⟨⟨⟨rfl, rfl, by decide, fun q => by rcases q with _ | _ | q <;> nofun⟩, trivial⟩, trivial⟩,
        ⟨⟨rfl, hfresh rfl rfl fun q => by rcases q with _ | _ | q <;> rfl⟩, trivial⟩,
        ⟨⟨⟨rfl, .head _⟩, trivial⟩, trivial⟩, ⟨⟨.head _, trivial⟩, trivial⟩,
        ⟨⟨⟨rfl, .head _, rfl⟩, hfresh rfl rfl (fun q => by rcases q with _ | _ | q <;> rfl),
          fun _ _ => Or.inr ⟨rfl, nofun⟩⟩, trivial⟩,
        ⟨⟨⟨rfl, .head _⟩, trivial⟩, trivial⟩, ⟨⟨.head _, trivial⟩, trivial⟩,
        ⟨⟨⟨.head _, rfl, rfl⟩, trivial⟩, trivial⟩,
        ⟨⟨⟨rfl, .head _, rfl, rfl, rfl⟩, trivial⟩, trivial⟩, trivial⟩
    · exact ⟨⟨⟨rfl, trivial⟩, trivial⟩,
        ⟨⟨rfl, hfresh rfl rfl fun q => by rcases q with _ | _ | q <;> rfl⟩, trivial⟩,
        ⟨⟨⟨rfl, .head _⟩, trivial⟩, trivial⟩, ⟨⟨.head _, trivial⟩, trivial⟩,
        ⟨⟨⟨rfl, .head _, rfl⟩, hfresh rfl rfl (fun q => by rcases q with _ | _ | q <;> rfl),
          fun _ _ => Or.inr ⟨rfl, nofun⟩⟩, trivial⟩,
        ⟨⟨⟨rfl, .head _⟩, trivial⟩, trivial⟩, ⟨⟨.head _, trivial⟩, trivial⟩,
        ⟨⟨⟨.head _, rfl, rfl⟩, trivial⟩, trivial⟩,
        ⟨⟨⟨rfl, .head _, rfl, rfl, rfl⟩, trivial⟩, trivial⟩, trivial⟩
  · cases booting <;> exact ⟨rfl, rfl, rfl⟩

/-- The container of the example with the area in it already. -/
def exampleTaken : AllocEnv × Words × Container :=
  (containerOwner.fn exampleDesc (exampleEnv, fun _ => 0, exampleRoot)).1

/-- A lost first request of `tasvir_new` for a new name and for one that another
thread has taken, and of `tasvir_init_thread`. -/
theorem blocking_rpc_at_most_once_lost :
    (∃ s : OnceState (AllocEnv × Words × Container) Desc (Option ℕ),
      s.AtMostOnce containerOwner 0 ∧ s.result 0 = some (some 0)) ∧
    (∃ s : OnceState (AllocEnv × Words × Container) Desc (Option ℕ),
      s.GotNull 0 ∧ (s.execs 0).map Prod.snd = [none] ∧ ∀ e ∈ s.execs 0, e.2 = none) ∧
    (∃ s : OnceState (ThreadTable × Bool × Bool) ℕ (Option ℕ),
      s.result 0 = some (some 1) ∧ s.bootedFor 0 = [1] ∧ (s.st.1.tdata 1).state = .booting ∧
      (s.bootedFor 0).length ≤ 1) := by
  have h1 : (containerOwner.fn exampleDesc (exampleEnv, fun _ => 0, exampleRoot)).2 = some 0 := by
    decide +kernel
  have h2 : (containerOwner.fn exampleDesc exampleTaken).2 = none := by
    decide +kernel
  have h3 : (daemonOwner.fn 100 ((SlotState.booted 1).table, true, true)).2 = some 1 := by decide
  refine ⟨?_, ?_, ?_⟩
  · obtain ⟨s, hs, -, -, hv⟩ :=
      lost_reachable containerOwner (exampleEnv, fun _ => 0, exampleRoot) trivial false exampleDesc
    rw [h1] at hv
    exact ⟨s, (blocking_rpc_at_most_once 0).1 _ _ _ containerOwner s hs.of_restrict, hv⟩
  · obtain ⟨s, hs, -, he, hv⟩ :=
      lost_reachable containerOwner exampleTaken trivial false exampleDesc
    rw [h2] at he hv
    refine ⟨s, Or.inr hv, ?_, (blocking_rpc_at_most_once 0).2.1 s hs (Or.inr hv)⟩
    rw [he]
    rfl
  · obtain ⟨s, hs, hst, he, hv⟩ := lost_reachable daemonOwner
      ((SlotState.booted 1).table, true, true) daemonOwner_booted true 100
    rw [h3] at hv
    refine ⟨s, hv, ?_, ?_, ((blocking_rpc_at_most_once 0).2.2 s hs.of_restrict).1⟩
    · rw [OnceState.bootedFor, he]
      decide
    · rw [hst]
      decide

end Tasvir
