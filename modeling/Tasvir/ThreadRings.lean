import Mathlib.Tactic
import Tasvir.ThreadTable

/-! The rings of the thread table. `tasvir_init_thread` marks its slot BOOTING before it creates
them, and `tasvir_service_io` and the routing of messages use the rings of every slot in state
BOOTING or RUNNING without a further check. -/
namespace Tasvir

/-- If there is a slot for the thread, both of its rings can be created. -/
def ThreadTable.RingsCreated (t : ThreadTable) (mem : Bool × Bool) : Prop :=
  ∀ k, t.freeSlot = some k →
    rteRingCreate (t.txName k) mem.1 = true ∧ rteRingCreate (t.rxName k) mem.2 = true

/-- Every slot that `tasvir_service_io` services has both rings. -/
def ThreadTable.Usable (t : ThreadTable) : Prop :=
  ∀ i, (t.tdata i).state = .booting ∨ (t.tdata i).state = .running →
    (t.tdata i).ringTx = true ∧ (t.tdata i).ringRx = true

/-- The condition on a step: a thread is not initialised when its rings cannot be created. -/
def SlotState.ringsCreated (s : SlotState) : SlotAct → Prop
  | .initThread _ mem => s.table.RingsCreated mem
  | _ => True

/-- A slot that is or may become live has its rings, and a ring has its name taken. -/
structure RingInv (t : ThreadTable) : Prop where
  rings : ∀ i, (t.tdata i).state.live = true ∨ (t.tdata i).stateReq ≠ .invalid →
    (t.tdata i).ringTx = true ∧ (t.tdata i).ringRx = true
  txName : ∀ i, (t.tdata i).ringTx = true → t.txName i = true
  rxName : ∀ i, (t.tdata i).ringRx = true → t.rxName i = true

namespace ThreadTable
variable {t : ThreadTable}

theorem freeSlot_isFree {k : ℕ} (hk : t.freeSlot = some k) : t.isFree k = true :=
  List.find?_some hk

theorem tasvirInitThread_fst {k : ℕ} (hk : t.freeSlot = some k) (pid : ℕ) (mem : Bool × Bool) :
    (t.tasvirInitThread pid mem).1.tdata k =
      { state := .booting, ringTx := rteRingCreate (t.txName k) mem.1
        ringRx := rteRingCreate (t.rxName k) mem.2 } := by
  simp [tasvirInitThread, hk]

/-- A call that finds a slot has changed it, whether it fails or not. -/
theorem tasvirInitThread_ne {k : ℕ} (hk : t.freeSlot = some k) (pid : ℕ) (mem : Bool × Bool) :
    (t.tasvirInitThread pid mem).1.tdata ≠ t.tdata := by
  intro he
  have hslot := tasvirInitThread_fst hk pid mem
  have hfree := freeSlot_isFree hk
  rw [he] at hslot
  simp [isFree, hslot] at hfree

/-- A call fails without a trace, or does not fail, exactly when no slot is left without rings. -/
theorem tasvirInitThread_atomic_iff (t : ThreadTable) (pid : ℕ) (mem : Bool × Bool) :
    ((t.tasvirInitThread pid mem).2 = none → (t.tasvirInitThread pid mem).1.tdata = t.tdata ∧
      (t.tasvirInitThread pid mem).1.threads = t.threads) ↔ t.RingsCreated mem := by
  cases hk : t.freeSlot with
  | none => simp [tasvirInitThread, RingsCreated, hk]
  | some k =>
    have hne := tasvirInitThread_ne hk pid mem
    have hcreated : t.RingsCreated mem ↔ rteRingCreate (t.txName k) mem.1 = true ∧
        rteRingCreate (t.rxName k) mem.2 = true := by
      simp [RingsCreated, hk]
    have hret : (t.tasvirInitThread pid mem).2 = none ↔ ¬t.RingsCreated mem := by
      simp [tasvirInitThread, hk, hcreated]
    rw [hret]
    constructor
    · intro h
      by_contra hc
      exact hne (h hc).1
    · intro hc hn
      exact absurd hc hn

theorem not_usable_of_not_ringsCreated (pid : ℕ) {mem : Bool × Bool} (hc : ¬t.RingsCreated mem) :
    ¬(t.tasvirInitThread pid mem).1.Usable := by
  intro hu
  apply hc
  intro k hk
  have hslot := tasvirInitThread_fst hk pid mem
  have hring := hu k (.inl (by rw [hslot]))
  rwa [hslot] at hring

end ThreadTable

section
variable {t : ThreadTable}

/-- The slot whose rings can be created has none, so no thread has it. -/
theorem RingInv.freeSlot_not_live (hr : RingInv t) {mem : Bool × Bool} (hc : t.RingsCreated mem)
    {k : ℕ} (hk : t.freeSlot = some k) : (t.tdata k).state.live = false := by
  by_contra hl
  have hring := (hr.rings k (.inl (by simpa using hl))).1
  have hcreate := (hc k hk).1
  simp [rteRingCreate, hr.txName k hring] at hcreate

/-- The slot found is filled, with both rings and their names. -/
theorem RingInv.initThread (hr : RingInv t) (pid : ℕ) {mem : Bool × Bool}
    (hc : t.RingsCreated mem) : RingInv (t.tasvirInitThread pid mem).1 := by
  cases hk : t.freeSlot with
  | none => simpa [ThreadTable.tasvirInitThread, hk] using hr
  | some k =>
    obtain ⟨htx, hrx⟩ := hc k hk
    simp only [ThreadTable.tasvirInitThread, hk, htx, hrx, Bool.or_true]
    constructor <;> simp only [Function.update_apply] <;> grind [RingInv]

theorem RingInv.initFinish (hr : RingInv t) (i : ℕ) : RingInv (t.tasvirInitFinish i).1 := by
  unfold ThreadTable.tasvirInitFinish
  by_cases hb : (t.tdata (t.threads i).idx).state = .booting
  · have hrings := hr.rings (t.threads i).idx (.inl (by rw [hb]; rfl))
    simp only [hb, ne_eq, not_true, ↓reduceIte]
    constructor <;> simp only [Function.update_apply] <;> grind [RingInv]
  · simpa only [hb, ne_eq, not_false_eq_true, ↓reduceIte] using hr

theorem RingInv.handOver (hr : RingInv t) (i : ℕ) : RingInv (t.handOver i) := by
  unfold ThreadTable.handOver
  split
  case isTrue h =>
    have hrings := hr.rings i (.inr h.1)
    constructor <;> simp only [Function.update_apply] <;> grind [RingInv]
  case isFalse => exact hr

theorem RingInv.activate (hr : RingInv t) {i : ℕ} (hl : (t.tdata i).state.live = true)
    (active : Bool) : RingInv (t.tasvirActivate i active) := by
  have hrings := hr.rings i (.inl hl)
  unfold ThreadTable.tasvirActivate
  constructor <;> simp only [Function.update_apply] <;> grind [RingInv]

theorem RingInv.clearThread (hr : RingInv t) (i idx : ℕ) : RingInv (t.clearThread i idx) := by
  unfold ThreadTable.clearThread
  constructor <;> simp only [Function.update_apply] <;> grind [RingInv, ThreadState.live]

end

section
variable {s : SlotState}

theorem ringInv_booted (pid : ℕ) : RingInv (SlotState.booted pid).table := by
  constructor <;> simp only [SlotState.booted, Function.update_apply] <;> grind [ThreadState.live]

/-- Requests and processes do not matter to the rings, apart from `tasvir_activate`: it is the
slot of a live process that it acts on. -/
theorem RingInv.step (hr : RingInv s.table) (hi : SlotInv s) (a : SlotAct) (hp : s.pre a)
    (hc : s.ringsCreated a) : RingInv (s.next a).table := by
  cases a with
  | start p => exact hr
  | exit p => exact hr
  | askThread p => exact hr
  | initThread p mem => exact hr.initThread p hc
  | takeThread p i => exact hr
  | askFinish p i => exact hr
  | initFinish p i => exact hr.initFinish i
  | finished p => exact hr
  | activate p i active =>
    obtain ⟨ha, -, ht, -⟩ := hp
    exact hr.activate (hi.live p i (hi.thread_pid p i ht ha) ha) active
  | handOver i => exact hr.handOver i
  | killBegin i => exact hr
  | killEnd i idx => exact hr.clearThread i idx

theorem ringInv_reachable (h : (slotSystem.restrict SlotState.ringsCreated).Reachable s) :
    SlotInv s ∧ RingInv s.table := by
  apply h.invariant
  · rintro s ⟨pid, hpid, rfl⟩
    exact ⟨slotInv_booted pid hpid, ringInv_booted pid⟩
  · rintro s a ⟨hi, hr⟩ ⟨hp, hc⟩
    refine ⟨hi.step a hp ?_, hr.step hi a hp hc⟩
    rintro p mem rfl k hk
    exact hr.freeSlot_not_live hc hk

end

/-- A `tasvir_init_thread` that fails leaves the thread table as it was exactly when it fails for
want of a slot. While no thread is initialised whose rings cannot be created, every slot in state
BOOTING or RUNNING has its rings, and the first such call leaves one without. -/
theorem failed_init_thread_leaves_table_iff (t : ThreadTable) (pid : ℕ) (mem : Bool × Bool) :
    (((t.tasvirInitThread pid mem).2 = none → (t.tasvirInitThread pid mem).1.tdata = t.tdata ∧
      (t.tasvirInitThread pid mem).1.threads = t.threads) ↔ t.RingsCreated mem) ∧
    (∀ s, (slotSystem.restrict SlotState.ringsCreated).Reachable s → s.table.Usable) ∧
    (¬t.RingsCreated mem → ¬(t.tasvirInitThread pid mem).1.Usable) := by
  refine ⟨ThreadTable.tasvirInitThread_atomic_iff t pid mem, ?_, ?_⟩
  · intro s hs i hstate
    apply (ringInv_reachable hs).2.rings i
    left
    rcases hstate with h | h
    · rw [h]; rfl
    · rw [h]; rfl
  · intro hc
    exact ThreadTable.not_usable_of_not_ringsCreated pid hc

/-- The first application thread of a node asks for a slot when there is no memory for a ring:
it gets none, and slot 1 is BOOTING without rings from then on. -/
theorem failed_init_thread_keeps_slot :
    ∃ s, slotSystem.Reachable s ∧ s.pre (.initThread 100 (false, false)) ∧
      (s.table.tasvirInitThread 100 (false, false)).2 = none ∧
      (s.table.tasvirInitThread 100 (false, false)).1.tdata ≠ s.table.tdata ∧
      ((s.next (.initThread 100 (false, false))).table.tdata 1).state = .booting ∧
      ((s.next (.initThread 100 (false, false))).table.tdata 1).ringTx = false := by
  have h0 : slotSystem.Reachable (.booted 1) := .init ⟨1, by decide, rfl⟩
  have hr := h0.run [.start 100, .askThread 100] (by decide)
  refine ⟨_, hr, by decide, by decide, ?_, by decide, by decide⟩
  exact ThreadTable.tasvirInitThread_ne (k := 1) (by decide) 100 (false, false)

end Tasvir
