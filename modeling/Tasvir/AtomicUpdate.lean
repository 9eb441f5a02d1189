import Mathlib.Tactic
import Tasvir.Machine
import Tasvir.OwnerNode
import Tasvir.Receiver

/-! Atomicity of remote updates: which versions the RW copy of a remote area is
made of when an internal sync publishes it. -/
namespace Tasvir
open RunLength Machine

theorem bytesOf_append (ms ns : List MemMsg) : bytesOf (ms ++ ns) = bytesOf ms+bytesOf ns := by
  rw [bytesOf, List.map_append, List.sum_append]
  rfl

section
variable {d : AreaDesc} {v : ℕ} {image : Mem}

/-- Byte counts place every message of a stream. -/
theorem Stream.mem {prev : ℕ} {ms : List MemMsg} (h : Stream d v image prev ms) {m : MemMsg}
    (hm : m ∈ ms) : m.Fragment d v image m.prevBytes ∧ 0 < m.len ∧ prev ≤ m.prevBytes ∧
      m.prevBytes+m.len ≤ prev+bytesOf ms := by
  induction ms generalizing prev with
  | nil => exact absurd hm List.not_mem_nil
  | cons m' ms ih =>
    obtain ⟨a, n, -, hn, hpos, -⟩ := h.1.lines
    have hprev := h.1.prev_eq
    rw [bytesOf_cons]
    rcases List.mem_cons.mp hm with hm | hm
    · subst hm
      refine ⟨?_, by omega, by omega, by omega⟩
      rw [hprev]
      exact h.1
    · obtain ⟨h1, h2, h3, h4⟩ := ih h.2 hm
      exact ⟨h1, h2, by omega, by omega⟩

/-- A stream puts its image on exactly the lines it carries. -/
theorem applyMsgs_stream {prev : ℕ} {ms : List MemMsg} (h : Stream d v image prev ms) (dst : Mem)
    (x : ℕ) :
    (Covers (ms.map MemMsg.run) (x/64) → applyMsgs dst ms x = image x) ∧
    (¬Covers (ms.map MemMsg.run) (x/64) → applyMsgs dst ms x = dst x) :=
  applyMsgs_image ms (fun _ hm => ⟨d, v, _, (h.mem hm).1⟩) dst x

/-- The message whose byte count continues a prefix of the stream is the next one. -/
theorem Stream.next {part rest : List MemMsg} (h : Stream d v image 0 (part ++ rest)) {m : MemMsg}
    (hm : m ∈ part ++ rest) (hb : m.prevBytes = bytesOf part) : ∃ rest', rest = m :: rest' := by
  obtain ⟨h1, h2⟩ := h.split
  rcases List.mem_append.mp hm with hm | hm
  · -- inside the prefix the byte counts are smaller
    obtain ⟨-, hpos, -, hle⟩ := h1.mem hm
    omega
  · cases rest with
    | nil => exact absurd hm List.not_mem_nil
    | cons m' rest =>
      rcases List.mem_cons.mp hm with hm | hm
      · exact ⟨rest, by rw [hm]⟩
      · obtain ⟨-, -, hge, -⟩ := Stream.mem h2.2 hm
        obtain ⟨-, hpos, -, -⟩ := h2.mem List.mem_cons_self
        omega

end

/-- Only the final message of a complete emission is marked. -/
theorem Marked.last_iff {p q : List MemMsg} {m : MemMsg} (h : Marked true (p ++ m :: q)) :
    m.last = true ↔ q = [] := by
  obtain ⟨ms, z, heq, hms, hz⟩ := h
  cases List.eq_nil_or_concat q with
  | inl hq =>
    subst hq
    obtain ⟨-, hmz⟩ := List.append_inj' heq rfl
    rw [List.cons.injEq] at hmz
    rw [hmz.1, hz]
    simp
  | inr hq =>
    obtain ⟨q', y, hq⟩ := hq
    subst hq
    have hmem : m ∈ ms := by
      have hassoc : p ++ m :: (q' ++ [y]) = (p ++ m :: q') ++ [y] := by simp
      rw [List.concat_eq_append, hassoc] at heq
      obtain ⟨hp, -⟩ := List.append_inj' heq rfl
      rw [← hp]
      simp
    rw [hms m hmem]
    simp

/-- Messages leave the cells they do not carry alone. -/
theorem applyMsgs_frame (ms : List MemMsg)
    (h : ∀ m ∈ ms, ∃ d v image prev, m.Fragment d v image prev) (dst : Mem) (x : ℕ)
    (hx : ¬Covers (ms.map MemMsg.run) (x/64)) : applyMsgs dst ms x = dst x := by
  induction ms generalizing dst with
  | nil => rfl
  | cons m ms ih =>
    rw [List.map_cons, covers_cons] at hx
    have hfold : applyMsgs dst (m :: ms) = applyMsgs (applyMsgs dst [m]) ms := rfl
    obtain ⟨d, v, image, prev, hm⟩ := h m List.mem_cons_self
    rw [hfold, ih (fun m' hm' => h m' (List.mem_cons_of_mem _ hm')) _ (fun hc => hx (Or.inr hc)),
      storeLines_fragment hm, if_neg]
    rw [covers_cons]
    rintro (hc | hc)
    · exact hx (Or.inl hc)
    · exact covers_nil _ hc

/-- The emissions of an area, one for each version. -/
structure Emissions (d : AreaDesc) where
  msgs : ℕ → List MemMsg
  image : ℕ → Mem
  stream : ∀ v, Stream d v (image v) 0 (msgs v)
  marked : ∀ v, msgs v ≠ [] → Marked true (msgs v)

/-- The receiver with its history: the versions completed so far, oldest first,
and the messages written since the last of them. -/
structure AtomicState where
  r : Receiver
  done : List ℕ
  opened : List MemMsg

/-- The message gets as far as the write. -/
def Receiver.writes (r : Receiver) (m : MemMsg) : Bool :=
  r.hasHeader && !r.enqueue && !((r.enter m).ignore || !(r.enter m).pending)

def AtomicState.handle (late full : Bool) (s : AtomicState) (m : MemMsg) : AtomicState :=
  { r := s.r.handleMsgMem late full m
    done := if s.r.writes m && m.last then s.done ++ [m.version] else s.done
    opened := if s.r.writes m then (if m.last then [] else s.opened ++ [m]) else s.opened }

/-- A completed internal sync of the node, with the deferred messages after it. -/
def AtomicState.sync (d : AreaDesc) (evs : List SyncEvent) (s : AtomicState) : AtomicState :=
  (s.r.syncJob d evs).ring.foldl (AtomicState.handle false false)
    { s with r := { s.r.syncJob d evs with ring := [] } }

theorem AtomicState.sync_receiver (d : AreaDesc) (evs : List SyncEvent) (s : AtomicState) :
    (s.sync d evs).r = s.r.internalSync d evs := by
  have hfold (ms : List MemMsg) (s : AtomicState) :
      (ms.foldl (AtomicState.handle false false) s).r =
        ms.foldl (Receiver.handleMsgMem false false) s.r := by
    induction ms generalizing s with
    | nil => rfl
    | cons m ms ih => exact ih (s.handle false false m)
  exact hfold _ _

inductive AtomicAct
  /-- a message is handed to `tasvir_handle_msg_mem` -/
  | recv (m : MemMsg) (late full : Bool)
  | sync (evs : List SyncEvent)

def atomicSystem (d : AreaDesc) (E : Emissions d) (rw₀ : Mem) : System AtomicState AtomicAct where
  init s := s.r.mem.rw = rw₀ ∧ s.r.pending = false ∧ s.r.ignore = false ∧ s.r.enqueue = false ∧
    s.r.ring = [] ∧ s.done = [] ∧ s.opened = []
  pre _ a := match a with
    | .recv m _ _ => m ∈ E.msgs m.version
    | .sync evs => Completes d evs
  next s a := match a with
    | .recv m late full => s.handle late full m
    | .sync evs => s.sync d evs

/-- The condition on a handled message: there is room in the queue, the byte
count is the expected one, and a version that starts while another is pending
rewrites every line written since the last complete version. -/
def AtomicState.Conforms {d : AreaDesc} (E : Emissions d) (full : Bool) (s : AtomicState)
    (m : MemMsg) : Prop :=
  (s.r.enqueue = true → full = false) ∧
  (s.r.enqueue = false → s.r.lastSyncExtV = m.version → s.r.pending = true →
    m.prevBytes = s.r.lastSyncExtBytes) ∧
  (s.r.enqueue = false → s.r.lastSyncExtV ≠ m.version → m.prevBytes = 0 ∧
    ∀ l, Covers (s.opened.map MemMsg.run) l → Covers ((E.msgs m.version).map MemMsg.run) l)

/-- The condition along a list of deferred messages. -/
def AtomicState.ConformsAll {d : AreaDesc} (E : Emissions d) : AtomicState → List MemMsg → Prop
  | _, [] => True
  | s, m :: ms => s.Conforms E false m ∧ ConformsAll E (s.handle false false m) ms

def AtomicAct.Conforms {d : AreaDesc} (E : Emissions d) (s : AtomicState) : AtomicAct → Prop
  | .recv m _ full => s.Conforms E full m
  | .sync evs => AtomicState.ConformsAll E { s with r := { s.r.syncJob d evs with ring := [] } }
      (s.r.syncJob d evs).ring

structure AtomicInv {d : AreaDesc} (E : Emissions d) (rw₀ : Mem) (s : AtomicState) : Prop where
  ignore : s.r.ignore = false
  /-- nothing is pending while messages are deferred -/
  quiet : s.r.enqueue = true → s.r.pending = false
  empty : s.r.enqueue = false → s.r.ring = []
  queued : ∀ m ∈ s.r.ring, m ∈ E.msgs m.version
  written : ∀ m ∈ s.opened, m ∈ E.msgs m.version
  rw : s.r.mem.rw = applyMsgs rw₀ (s.done.flatMap E.msgs ++ s.opened)
  idle : s.r.pending = false → s.opened = []
  /-- a prefix of the pending version is there, on top of what was abandoned -/
  busy : s.r.pending = true → ∃ stale part rest, s.opened = stale ++ part ∧
    part ++ rest = E.msgs s.r.lastSyncExtV ∧ s.r.lastSyncExtBytes = bytesOf part ∧
    ∀ l, Covers (stale.map MemMsg.run) l → Covers ((E.msgs s.r.lastSyncExtV).map MemMsg.run) l

section
variable {d : AreaDesc} {E : Emissions d} {rw₀ : Mem} {s : AtomicState}

/-- A complete version hides whatever it covers. -/
theorem applyMsgs_hides (stale : List MemMsg) (hstale : ∀ m ∈ stale, m ∈ E.msgs m.version) (v : ℕ)
    (hcov : ∀ l, Covers (stale.map MemMsg.run) l → Covers ((E.msgs v).map MemMsg.run) l)
    (dst : Mem) : applyMsgs dst (stale ++ E.msgs v) = applyMsgs dst (E.msgs v) := by
  have hfrag : ∀ m ∈ stale, ∃ d v image prev, m.Fragment d v image prev := fun m hm =>
    ⟨_, _, _, _, ((E.stream m.version).mem (hstale m hm)).1⟩
  rw [applyMsgs_append]
  funext x
  by_cases hc : Covers ((E.msgs v).map MemMsg.run) (x/64)
  · rw [(applyMsgs_stream (E.stream v) _ x).1 hc, (applyMsgs_stream (E.stream v) _ x).1 hc]
  · rw [(applyMsgs_stream (E.stream v) _ x).2 hc, (applyMsgs_stream (E.stream v) _ x).2 hc]
    exact applyMsgs_frame stale hfrag dst x (fun h => hc (hcov _ h))

/-- A message in its place extends the pending version or completes it. -/
theorem AtomicInv.accept (h : AtomicInv E rw₀ s) (late : Bool) (m : MemMsg) (a : ℕ)
    (hm : m ∈ E.msgs m.version) (ha : m.addr = some a) (he : s.r.enqueue = false)
    (stale part rest : List MemMsg) (hopen : s.opened = stale ++ part)
    (hall : part ++ m :: rest = E.msgs m.version) (hb : m.prevBytes = bytesOf part)
    (hcov : ∀ l, Covers (stale.map MemMsg.run) l → Covers ((E.msgs m.version).map MemMsg.run) l) :
    AtomicInv E rw₀ ⟨s.r.accept late m a,
      if m.last then s.done ++ [m.version] else s.done,
      if m.last then [] else s.opened ++ [m]⟩ := by
  have hlast := Marked.last_iff (p := part) (q := rest) (m := m) (by
    rw [hall]
    exact E.marked _ (List.ne_nil_of_mem hm))
  have hrw : (s.r.accept late m a).mem.rw = applyMsgs s.r.mem.rw [m] := by
    simp only [Receiver.accept, (NodeMem.receive_frame _ _ _ _).1, applyMsgs, List.foldl_cons,
      List.foldl_nil, ha]
  have hstale : ∀ m ∈ stale, m ∈ E.msgs m.version := by
    intro m' hm'
    apply h.written
    rw [hopen]
    exact List.mem_append_left _ hm'
  cases hl : m.last
  · -- the version stays pending
    refine ⟨rfl, ?_, ?_, ?_, ?_, ?_, ?_, ?_⟩
    · intro hq
      simp [Receiver.accept, hl] at hq
    · intro _
      exact h.empty he
    · exact h.queued
    · intro m' hm'
      rcases List.mem_append.mp hm' with hm' | hm'
      · exact h.written m' hm'
      · rw [List.mem_singleton.mp hm']
        exact hm
    · simp only [Bool.false_eq_true, ↓reduceIte]
      rw [hrw, h.rw, ← applyMsgs_append, List.append_assoc]
    · intro hp
      simp [Receiver.accept, hl] at hp
    · intro _
      refine ⟨stale, part ++ [m], rest, ?_, ?_, ?_, hcov⟩
      · simp only [Bool.false_eq_true, ↓reduceIte, hopen, List.append_assoc]
      · simp only [Receiver.accept, List.append_assoc]
        exact hall
      · simp only [Receiver.accept, hb, bytesOf_append]
        rfl
  · -- all of its messages are written
    have hrest := hlast.mp hl
    subst hrest
    refine ⟨rfl, ?_, ?_, ?_, ?_, ?_, ?_, ?_⟩
    · intro _
      simp [Receiver.accept, hl]
    · intro _
      exact h.empty he
    · exact h.queued
    · intro m' hm'
      exact absurd hm' List.not_mem_nil
    · simp only [↓reduceIte, List.append_nil, List.flatMap_append, List.flatMap_cons,
        List.flatMap_nil]
      rw [hrw, h.rw, hopen, ← applyMsgs_append, List.append_assoc, List.append_assoc, hall,
        applyMsgs_append rw₀, applyMsgs_append rw₀]
      exact applyMsgs_hides stale hstale m.version hcov _
    · intro _
      rfl
    · intro hp
      simp [Receiver.accept, hl] at hp

theorem AtomicInv.handle (h : AtomicInv E rw₀ s) (late full : Bool) (m : MemMsg)
    (hm : m ∈ E.msgs m.version) (hok : s.Conforms E full m) :
    AtomicInv E rw₀ (s.handle late full m) := by
  obtain ⟨hroom, hbytes, hstart⟩ := hok
  obtain ⟨n, k, ha, -⟩ := ((E.stream m.version).mem hm).1.lines
  cases hh : s.r.hasHeader
  · -- without a header the message is dropped
    have hw : s.r.writes m = false := by simp only [Receiver.writes, hh, Bool.false_and]
    have hr : s.r.handleMsgMem late full m = s.r := by
      simp only [Receiver.handleMsgMem, hh, Bool.not_false, ↓reduceIte]
    simp only [AtomicState.handle, hw, hr, Bool.false_and, Bool.false_eq_true, ↓reduceIte]
    exact h
  · cases he : s.r.enqueue
    · by_cases hv : s.r.lastSyncExtV = m.version
      · have henter : s.r.enter m = s.r := if_neg (not_not.mpr hv)
        cases hp : s.r.pending
        · -- the version is complete already
          have hw : s.r.writes m = false := by
            simp only [Receiver.writes, henter, hp, Bool.not_false, Bool.or_true, Bool.not_true,
              Bool.and_false]
          simp only [AtomicState.handle, hw, handle_drop late full s.r m he hv (Or.inr hp),
            Bool.false_and, Bool.false_eq_true, ↓reduceIte]
          exact h
        · obtain ⟨stale, part, rest, hopen, hall, hb, hcov⟩ := h.busy hp
          have hmb := hbytes he hv hp
          rw [hv] at hall hcov
          obtain ⟨rest', hrest⟩ := Stream.next (by rw [hall]; exact E.stream _)
            (by rw [hall]; exact hm) (hmb.trans hb)
          rw [hrest] at hall
          have hw : s.r.writes m = true := by
            simp only [Receiver.writes, henter, hp, hh, he, h.ignore, Bool.not_false,
              Bool.not_true, Bool.or_self, Bool.and_self]
          simp only [AtomicState.handle, hw, Bool.true_and, ↓reduceIte,
            handle_accept late full s.r m (64*n) hh he ha (Or.inr ⟨hv, hp, h.ignore, hmb.symm⟩)]
          exact h.accept late m (64*n) hm ha he stale part rest' hopen hall (hmb.trans hb) hcov
      · obtain ⟨hzero, hcov⟩ := hstart he hv
        have hstream : Stream d m.version (E.image m.version) 0 ([] ++ E.msgs m.version) :=
          E.stream m.version
        obtain ⟨rest', hrest⟩ := hstream.next hm hzero
        have hw : s.r.writes m = true := by
          simp only [Receiver.writes, Receiver.enter, hh, he, ne_eq, hv, not_false_eq_true,
            ↓reduceIte, Bool.not_true, Bool.or_self, Bool.not_false, Bool.and_self]
        simp only [AtomicState.handle, hw, Bool.true_and, ↓reduceIte,
          handle_accept late full s.r m (64*n) hh he ha (Or.inl ⟨hv, hzero⟩)]
        exact h.accept late m (64*n) hm ha he s.opened [] rest' (List.append_nil _).symm
          hrest.symm hzero hcov
    · -- deferred
      have hw : s.r.writes m = false := by
        simp only [Receiver.writes, he, Bool.not_true, Bool.and_false, Bool.false_and]
      have hfull := hroom he
      subst hfull
      simp only [AtomicState.handle, hw, handle_queue late s.r m hh he, Bool.false_and,
        Bool.false_eq_true, ↓reduceIte]
      refine ⟨h.ignore, h.quiet, ?_, ?_, h.written, h.rw, h.idle, h.busy⟩
      · intro hf
        rw [he] at hf
        exact Bool.noConfusion hf
      · intro m' hm'
        rcases List.mem_append.mp hm' with hm' | hm'
        · exact h.queued m' hm'
        · rw [List.mem_singleton.mp hm']
          exact hm

/-- Run lemma for the deferred messages. -/
theorem AtomicInv.handleAll (h : AtomicInv E rw₀ s) (ms : List MemMsg)
    (hms : ∀ m ∈ ms, m ∈ E.msgs m.version) (hok : AtomicState.ConformsAll E s ms) :
    AtomicInv E rw₀ (ms.foldl (AtomicState.handle false false) s) := by
  induction ms generalizing s with
  | nil => exact h
  | cons m ms ih =>
    exact ih (h.handle false false m (hms m List.mem_cons_self) hok.1)
      (fun m' hm' => hms m' (List.mem_cons_of_mem _ hm')) hok.2

theorem AtomicInv.sync (h : AtomicInv E rw₀ s) (evs : List SyncEvent)
    (hok : (AtomicAct.sync evs).Conforms E s) : AtomicInv E rw₀ (s.sync d evs) := by
  have hring : (s.r.syncJob d evs).ring = s.r.ring := by
    rw [Receiver.syncJob]
    split_ifs <;> rfl
  refine AtomicInv.handleAll ?_ _ ?_ hok
  · rw [Receiver.syncJob]
    split_ifs with hs
    · refine ⟨h.ignore, ?_, fun _ => rfl, ?_, h.written, ?_, h.idle, h.busy⟩
      · intro hf
        exact Bool.noConfusion hf
      · intro m hm
        exact absurd hm List.not_mem_nil
      · simp only [rw_events d false evs]
        exact h.rw
    · refine ⟨h.ignore, h.quiet, fun _ => rfl, ?_, h.written, h.rw, h.idle, h.busy⟩
      intro m hm
      exact absurd hm List.not_mem_nil
  · rw [hring]
    exact h.queued

end

/-- Atomic remote updates: when every handled message has the byte count the
receiver expects, the queue has room, and a version that replaces a pending one
rewrites what that one wrote, then whatever an internal sync publishes is made of
complete versions only. -/
theorem published_versions_complete (d : AreaDesc) (E : Emissions d) (rw₀ : Mem) (s : AtomicState)
    (h : ((atomicSystem d E rw₀).restrict (fun s a => a.Conforms E s)).Reachable s)
    (hs : s.r.scheduled = true) :
    ∃ vs : List ℕ, s.r.mem.rw = applyMsgs rw₀ (vs.flatMap E.msgs) := by
  have hinv : AtomicInv E rw₀ s := by
    apply h.invariant
    · rintro s ⟨h1, h2, h3, h4, h5, h6, h7⟩
      refine ⟨h3, fun _ => h2, fun _ => h5, ?_, ?_, ?_, fun _ => h7, ?_⟩
      · rw [h5]
        exact fun m hm => absurd hm List.not_mem_nil
      · rw [h7]
        exact fun m hm => absurd hm List.not_mem_nil
      · rw [h6, h7, h1]
        rfl
      · intro hp
        rw [h2] at hp
        exact Bool.noConfusion hp
    · rintro s a hinv ⟨hpre, hok⟩
      cases a with
      | recv m late full => exact hinv.handle late full m hpre hok
      | sync evs => exact hinv.sync evs hok
  simp only [Receiver.scheduled, Bool.and_eq_true, Bool.not_eq_true', Bool.or_eq_false_iff] at hs
  refine ⟨s.done, ?_⟩
  rw [hinv.rw, hinv.idle hs.2.1, List.append_nil]

/-- Version 1 of a small area: the line of the version and two payload lines. -/
def firstImage : Mem := fun x => if x/64 = 513 ∨ x/64 = 533 ∨ x/64 = 535 then 1 else 0

/-- Message `k` of version 1: the three lines are not adjacent, so each has its own. -/
def firstMsg (k l : ℕ) : MemMsg :=
  { id := k, d := ⟨32768, 32768, false⟩, version := 1, addr := some (64*l), len := 64
    last := l == 535, prevBytes := 64*k, line := fun j => firstImage (64*l+j) }

def firstMsgs : List MemMsg := [firstMsg 0 513, firstMsg 1 533, firstMsg 2 535]

theorem firstMsgs_stream : Stream ⟨32768, 32768, false⟩ 1 firstImage 0 firstMsgs := by
  have hfrag (k l : ℕ) : (firstMsg k l).Fragment ⟨32768, 32768, false⟩ 1 firstImage (64*k) :=
    ⟨rfl, rfl, rfl, l, 1, rfl, rfl, by norm_num, fun _ => rfl⟩
  exact ⟨hfrag 0 513, hfrag 1 533, hfrag 2 535, trivial⟩

theorem firstMsgs_marked : Marked true firstMsgs := by
  refine ⟨[firstMsg 0 513, firstMsg 1 533], firstMsg 2 535, rfl, ?_, rfl⟩
  intro m hm
  simp only [List.mem_cons, List.not_mem_nil, or_false] at hm
  rcases hm with rfl | rfl <;> rfl

def firstEmission : Emissions ⟨32768, 32768, false⟩ where
  msgs v := if v = 1 then firstMsgs else []
  image _ := firstImage
  stream v := by
    by_cases hv : v = 1
    · subst hv
      exact firstMsgs_stream
    · rw [if_neg hv]
      trivial
  marked v h := by
    by_cases hv : v = 1
    · subst hv
      exact firstMsgs_marked
    · rw [if_neg hv] at h
      exact absurd rfl h

/-- A receiver that has nothing yet. -/
def newReceiver : AtomicState :=
  ⟨{ mem := ⟨fun _ => 0, fun _ => 0, fun _ => 0#64, fun _ _ => 0#64, fun _ => {}⟩ }, [], []⟩

/-- The middle message is lost: the byte count of the last one does not match,
the receiver leaves the pending state and writes it all the same, and the next
internal sync publishes one payload line of the version without the other. -/
theorem torn_version_published :
    ∃ s, (atomicSystem _ firstEmission fun _ => 0).Reachable s ∧ s.r.scheduled = true ∧
      ∀ vs : List ℕ, s.r.mem.rw ≠ applyMsgs (fun _ => 0) (vs.flatMap firstEmission.msgs) := by
  have hinit : (atomicSystem _ firstEmission fun _ => 0).Reachable newReceiver :=
    .init ⟨rfl, rfl, rfl, rfl, rfl, rfl, rfl⟩
  have h1 := hinit.step (a := AtomicAct.recv (firstMsg 0 513) false false) List.mem_cons_self
  have h2 := h1.step (a := AtomicAct.recv (firstMsg 2 535) false false)
    (List.mem_cons_of_mem _ (List.mem_cons_of_mem _ List.mem_cons_self))
  refine ⟨_, h2, by decide, ?_⟩
  intro vs heq
  have hfrag : ∀ m ∈ vs.flatMap firstEmission.msgs,
      ∃ d v prev, m.Fragment d v firstImage prev := by
    intro m hm
    obtain ⟨v, -, hm⟩ := List.mem_flatMap.mp hm
    exact ⟨_, _, _, ((firstEmission.stream v).mem hm).1⟩
  have hcell := fun x => applyMsgs_image (vs.flatMap firstEmission.msgs) hfrag (fun _ => 0) x
  -- the first line is there, so version 1 is among the versions
  have hone : 1 ∈ vs := by
    by_contra hno
    have hnil : vs.flatMap firstEmission.msgs = [] := by
      apply List.flatMap_eq_nil_iff.mpr
      intro v hv
      refine if_neg ?_
      rintro rfl
      exact hno hv
    rw [hnil] at heq
    exact absurd (congrFun heq (64*513)) (by decide)
  have hmem : firstMsg 1 533 ∈ vs.flatMap firstEmission.msgs :=
    List.mem_flatMap.mpr ⟨1, hone, List.mem_cons_of_mem _ List.mem_cons_self⟩
  have hcov : Covers ((vs.flatMap firstEmission.msgs).map MemMsg.run) (64*533/64) :=
    ⟨_, List.mem_map_of_mem hmem, by decide, by decide⟩
  have hline := (hcell (64*533)).1 hcov
  rw [← heq] at hline
  exact absurd hline (by decide)

/-- The same version delivered in full. -/
theorem whole_version_published :
    ∃ s, ((atomicSystem _ firstEmission fun _ => 0).restrict
        (fun s a => a.Conforms firstEmission s)).Reachable s ∧ s.r.scheduled = true ∧
      ∃ vs : List ℕ, s.r.mem.rw = applyMsgs (fun _ => 0) (vs.flatMap firstEmission.msgs) := by
  have hinit : ((atomicSystem _ firstEmission fun _ => 0).restrict
      (fun s a => a.Conforms firstEmission s)).Reachable newReceiver :=
    .init ⟨rfl, rfl, rfl, rfl, rfl, rfl, rfl⟩
  have c1 : newReceiver.Conforms firstEmission false (firstMsg 0 513) := by
    refine ⟨fun _ => rfl, fun _ hv => absurd hv (by decide), fun _ _ => ⟨rfl, ?_⟩⟩
    intro l hl
    exact absurd hl (covers_nil l)
  have h1 := hinit.step (a := AtomicAct.recv (firstMsg 0 513) false false) ⟨List.mem_cons_self, c1⟩
  have c2 : (newReceiver.handle false false (firstMsg 0 513)).Conforms firstEmission false (firstMsg 1 533) :=
    ⟨fun _ => rfl, fun _ _ _ => rfl, fun _ hv => absurd rfl hv⟩
  have h2 := h1.step (a := AtomicAct.recv (firstMsg 1 533) false false)
    ⟨List.mem_cons_of_mem _ List.mem_cons_self, c2⟩
  have c3 : ((newReceiver.handle false false (firstMsg 0 513)).handle false false
      (firstMsg 1 533)).Conforms firstEmission false (firstMsg 2 535) :=
    ⟨fun _ => rfl, fun _ _ _ => rfl, fun _ hv => absurd rfl hv⟩
  have h3 := h2.step (a := AtomicAct.recv (firstMsg 2 535) false false)
    ⟨List.mem_cons_of_mem _ (List.mem_cons_of_mem _ List.mem_cons_self), c3⟩
  exact ⟨_, h3, by decide, published_versions_complete _ firstEmission _ _ h3 (by decide)⟩

end Tasvir
