import Mathlib.Tactic
import Tasvir.AtomicUpdate
import Tasvir.RemoteArea

/-! Retransmission: when a second, complete emission of a version repairs what
the first one left behind. -/
namespace Tasvir
open RunLength Machine

/-- The messages of an emission arrive one after the other; `late` tells for each
whether half of the internal sync interval has passed by then. -/
def deliver (late : MemMsg → Bool) (r : Receiver) (ms : List MemMsg) : Receiver :=
  ms.foldl (fun r m => r.handleMsgMem (late m) false m) r

theorem Marked.tail {m n : MemMsg} {q : List MemMsg} (h : Marked true (m :: n :: q)) :
    Marked true (n :: q) := by
  obtain ⟨ms, z, heq, hms, hz⟩ := h
  cases ms with
  | nil => exact absurd heq (by simp)
  | cons y ms =>
    rw [List.cons_append, List.cons.injEq] at heq
    exact ⟨ms, z, heq.2, fun m' hm' => hms m' (List.mem_cons_of_mem _ hm'), hz⟩

section
variable {d : AreaDesc} {v : ℕ} {image : Mem}

/-- An emission that is in place from its first message on is taken in whole. -/
theorem deliver_accept (late : MemMsg → Bool) (m : MemMsg) (ms : List MemMsg) (prev : ℕ)
    (hs : Stream d v image prev (m :: ms)) (hm : Marked true (m :: ms)) (r : Receiver)
    (hh : r.hasHeader = true) (he : r.enqueue = false) (hin : r.InPlace m) :
    (deliver late r (m :: ms)).mem.rw = applyMsgs r.mem.rw (m :: ms) ∧
    (deliver late r (m :: ms)).hasHeader = true ∧ (deliver late r (m :: ms)).active = true ∧
    (deliver late r (m :: ms)).pending = false ∧
    (deliver late r (m :: ms)).sleeping = r.sleeping ∧
    (deliver late r (m :: ms)).ring = r.ring := by
  induction ms generalizing m prev r with
  | nil =>
    obtain ⟨a, n, ha, -⟩ := hs.1.lines
    have hl : m.last = true := (Marked.last_iff (p := []) (q := []) hm).mpr rfl
    simp only [deliver, List.foldl_cons, List.foldl_nil,
      handle_accept (late m) false r m (64*a) hh he ha hin, Receiver.accept, hl, hh, applyMsgs, ha,
      (NodeMem.receive_frame _ _ _ _).1, Bool.not_true, Bool.or_true, and_self]
  | cons n ms ih =>
    obtain ⟨a, k, ha, -⟩ := hs.1.lines
    have hl : m.last = false := by
      rw [← Bool.not_eq_true]
      intro hl
      exact List.cons_ne_nil _ _ ((Marked.last_iff (p := []) hm).mp hl)
    have hacc := handle_accept (late m) false r m (64*a) hh he ha hin
    have hfold : deliver late r (m :: n :: ms) =
        deliver late (r.accept (late m) m (64*a)) (n :: ms) := by
      rw [← hacc]
      rfl
    have hnext : (r.accept (late m) m (64*a)).InPlace n := by
      right
      simp only [Receiver.accept, hl, hs.1.version_eq, hs.2.1.version_eq, hs.2.1.prev_eq,
        hs.1.prev_eq, Bool.not_false, and_self]
    have hrw : (r.accept (late m) m (64*a)).mem.rw = applyMsgs r.mem.rw [m] := by
      simp only [Receiver.accept, (NodeMem.receive_frame _ _ _ _).1, applyMsgs, List.foldl_cons,
        List.foldl_nil, ha]
    obtain ⟨h1, h2⟩ := ih n (prev+m.len) hs.2 hm.tail (r.accept (late m) m (64*a)) hh
      (by simp only [Receiver.accept, hl, Bool.false_and]) hnext
    rw [hfold]
    refine ⟨?_, h2⟩
    rw [h1, hrw, ← applyMsgs_append]
    rfl

/-- A version that is not pending any more is dropped as a duplicate. -/
theorem deliver_drop (late : MemMsg → Bool) (ms : List MemMsg) (hms : ∀ m ∈ ms, m.version = v)
    (r : Receiver) (he : r.enqueue = false) (hv : r.lastSyncExtV = v) (hp : r.pending = false) :
    deliver late r ms = r := by
  induction ms with
  | nil => rfl
  | cons m ms ih =>
    have hdrop := handle_drop (late m) false r m he
      (hv.trans (hms m List.mem_cons_self).symm) (Or.inr hp)
    rw [deliver, List.foldl_cons, hdrop]
    exact ih (fun m' hm' => hms m' (List.mem_cons_of_mem _ hm'))

theorem deliver_queue (late : MemMsg → Bool) (ms : List MemMsg) (r : Receiver)
    (hh : r.hasHeader = true) (he : r.enqueue = true) :
    deliver late r ms = { r with ring := r.ring ++ ms } := by
  induction ms generalizing r with
  | nil => simp only [deliver, List.foldl_nil, List.append_nil]
  | cons m ms ih =>
    rw [deliver, List.foldl_cons, handle_queue (late m) r m hh he]
    refine (ih { r with ring := r.ring ++ [m] } hh he).trans ?_
    simp only [List.append_assoc, List.singleton_append]

theorem deliver_no_header (late : MemMsg → Bool) (ms : List MemMsg) (r : Receiver)
    (hh : r.hasHeader = false) : deliver late r ms = r := by
  induction ms with
  | nil => rfl
  | cons m ms ih =>
    have hdrop : r.handleMsgMem (late m) false m = r := by
      simp only [Receiver.handleMsgMem, hh, Bool.not_false, ↓reduceIte]
    rw [deliver, List.foldl_cons, hdrop]
    exact ih

end

/-- Once the node is up, messages leave the RO copy alone. -/
theorem handle_ro (late full : Bool) (r : Receiver) (m : MemMsg) (hb : r.booting = false) :
    (r.handleMsgMem late full m).mem.ro = r.mem.ro ∧
    (r.handleMsgMem late full m).booting = false := by
  have henter : (r.enter m).mem = r.mem ∧ (r.enter m).booting = false := by
    rw [Receiver.enter]
    split_ifs <;> exact ⟨rfl, hb⟩
  have hcheck : ((r.enter m).checkBytes m).mem = r.mem ∧
      ((r.enter m).checkBytes m).booting = false := by
    rw [Receiver.checkBytes]
    split_ifs <;> exact henter
  have hstore : (((r.enter m).checkBytes m).store m).mem.ro = r.mem.ro ∧
      (((r.enter m).checkBytes m).store m).booting = false := by
    rw [Receiver.store]
    cases m.addr with
    | none => exact ⟨by rw [hcheck.1], hcheck.2⟩
    | some a =>
      refine ⟨?_, hcheck.2⟩
      simp only [(NodeMem.receive_frame _ _ _ _).2.1, hcheck.2, hcheck.1, Bool.false_eq_true,
        ↓reduceIte]
  have hfinish : ((((r.enter m).checkBytes m).store m).finish late m).mem.ro = r.mem.ro ∧
      ((((r.enter m).checkBytes m).store m).finish late m).booting = false := by
    rw [Receiver.finish]
    split_ifs <;> exact hstore
  simp only [Receiver.handleMsgMem]
  split_ifs
  · exact ⟨rfl, hb⟩
  · exact ⟨rfl, hb⟩
  · exact ⟨rfl, hb⟩
  · exact ⟨by rw [henter.1], henter.2⟩
  · exact hfinish

theorem drain_ro (r : Receiver) (hb : r.booting = false) : r.drain.mem.ro = r.mem.ro := by
  have hfold (ms : List MemMsg) (r : Receiver) (hb : r.booting = false) :
      (ms.foldl (Receiver.handleMsgMem false false) r).mem.ro = r.mem.ro := by
    induction ms generalizing r with
    | nil => rfl
    | cons m ms ih =>
      obtain ⟨hro, hb'⟩ := handle_ro false false r m hb
      rw [List.foldl_cons, ih _ hb', hro]
  exact hfold _ _ hb

/-- The receiver takes in an emission of version `v`: the area is attached, no
messages are deferred, and the version is not the one it entered last. -/
def Receiver.Takes (r : Receiver) (v : ℕ) : Prop :=
  r.hasHeader = true ∧ r.enqueue = false ∧ r.lastSyncExtV ≠ v

/-- What an emission of `image` that is not taken in leaves in the RO copy after a
sync: of a pending version the first message is written and the rest ignored, and
otherwise nothing is written. -/
def Receiver.kept (r : Receiver) (first : MemMsg) (image : Mem) : Mem := fun x =>
  if r.hasHeader = true ∧ r.enqueue = false ∧ r.pending = true then
    if r.active = true ∨ first.last = true then
      if Covers [first.run] (x/64) then image x else r.mem.rw x
    else r.mem.ro x
  else if r.hasHeader = true ∧ r.active = true then r.mem.rw x
  else r.mem.ro x

section
variable {d : AreaDesc} {v : ℕ} {image : Mem}

/-- The RO copy after a sync, by what the scheduler decided. -/
theorem internalSync_ro (hd : d.Wf) {r : Receiver} (h : r.Sound d) (hb : r.booting = false)
    (evs : List SyncEvent) (hev : Completes d evs) (hsize : SmallChunks evs) (x : ℕ)
    (hx : d.Has (x/64)) :
    (r.internalSync d evs).mem.ro x =
      if r.hasHeader = true ∧ r.active = true ∧ r.pending = false then r.mem.rw x
      else r.mem.ro x := by
  have hboot : (r.syncJob d evs).booting = false := by
    rw [Receiver.syncJob]
    split_ifs <;> exact hb
  have hsched : r.scheduled = true ↔
      r.hasHeader = true ∧ r.active = true ∧ r.pending = false := by
    simp only [Receiver.scheduled, h.awake, Bool.or_false, Bool.and_eq_true, Bool.not_eq_true',
      and_assoc]
  rw [Receiver.internalSync, drain_ro _ hboot]
  by_cases hs : r.scheduled = true
  · rw [if_pos (hsched.mp hs), (h.syncJob hd evs hev hsize).2 hs x hx]
  · rw [if_neg (fun hc => hs (hsched.mpr hc)), Receiver.syncJob, if_neg hs]

theorem deliver_booting (late : MemMsg → Bool) (ms : List MemMsg) (r : Receiver)
    (hb : r.booting = false) : (deliver late r ms).booting = false ∧
      (deliver late r ms).mem.ro = r.mem.ro := by
  induction ms generalizing r with
  | nil => exact ⟨hb, rfl⟩
  | cons m ms ih =>
    obtain ⟨hro, hb'⟩ := handle_ro (late m) false r m hb
    obtain ⟨h1, h2⟩ := ih (r.handleMsgMem (late m) false m) hb'
    exact ⟨h1, h2.trans hro⟩

variable (hd : d.Wf) {r : Receiver} (h : r.Sound d) (hb : r.booting = false)
variable (m : MemMsg) (ms : List MemMsg) (hs : Stream d v image 0 (m :: ms))
variable (hm : Marked true (m :: ms)) (hwf : ∀ n ∈ m :: ms, n.Wf)
variable (evs : List SyncEvent) (hev : Completes d evs) (hsize : SmallChunks evs)
variable (late : MemMsg → Bool)

include hd h hb hs hm hwf hev hsize in
/-- An emission that is taken in puts its lines over the RW copy. -/
theorem repaired_of_takes (ht : r.Takes v) (x : ℕ) (hx : d.Has (x/64)) :
    ((deliver late r (m :: ms)).internalSync d evs).mem.ro x =
      if Covers ((m :: ms).map MemMsg.run) (x/64) then image x else r.mem.rw x := by
  obtain ⟨hh, he, hv⟩ := ht
  have hin : r.InPlace m := by
    left
    rw [hs.1.version_eq]
    exact ⟨hv, hs.1.prev_eq⟩
  obtain ⟨hrw, hh', ha, hp, -, -⟩ := deliver_accept late m ms 0 hs hm r hh he hin
  have hsound : (deliver late r (m :: ms)).Sound d := h.handleAll late (m :: ms) hwf
  rw [internalSync_ro hd hsound (deliver_booting late _ r hb).1 evs hev hsize x hx,
    if_pos ⟨hh', ha, hp⟩, hrw]
  obtain ⟨h1, h2⟩ := applyMsgs_stream hs r.mem.rw x
  split_ifs with hc
  · exact h1 hc
  · exact h2 hc

include h hs hm in
/-- The second attempt at a pending version: its first message does not have the
byte count the receiver is at, so it is written and all the others are ignored. -/
theorem deliver_pending (hh : r.hasHeader = true) (he : r.enqueue = false)
    (hv : r.lastSyncExtV = v) (hp : r.pending = true) :
    ∃ a, m.addr = some a ∧ deliver late r (m :: ms) = r.misplace (late m) m a := by
  obtain ⟨a, n, ha, -⟩ := hs.1.lines
  have hmiss : r.handleMsgMem (late m) false m = r.misplace (late m) m (64*a) := by
    have hcount := h.counted hp
    have hprev := hs.1.prev_eq
    rcases handle_cases (late m) false r m (64*a) ha h.skipping with ⟨hf, -⟩ | ⟨-, hf, -⟩ |
      ⟨-, hf, -⟩ | ⟨-, -, -, hf, -⟩ | ⟨-, -, hin, -⟩ | ⟨-, -, -, -, heq⟩
    · rw [hh] at hf
      exact Bool.noConfusion hf
    · rw [he] at hf
      exact Bool.noConfusion hf
    · rw [he] at hf
      exact Bool.noConfusion hf
    · rw [hp] at hf
      exact Bool.noConfusion hf
    · rcases hin with ⟨hne, -⟩ | ⟨-, -, -, hbytes⟩
      · exact absurd (hv.trans hs.1.version_eq.symm) hne
      · omega
    · exact heq
  refine ⟨64*a, ha, ?_⟩
  rw [deliver, List.foldl_cons, hmiss]
  cases ms with
  | nil => rfl
  | cons n ms =>
    have hl : m.last = false := by
      rw [← Bool.not_eq_true]
      intro hl
      exact List.cons_ne_nil _ _ ((Marked.last_iff (p := []) hm).mp hl)
    refine deliver_drop late (n :: ms) ?_ (r.misplace (late m) m (64*a)) ?_ hs.1.version_eq rfl
    · intro n' hn'
      exact (Stream.mem hs.2 hn').1.version_eq
    · simp only [Receiver.misplace, hl, Bool.false_and]

include hd h hb hs hm hwf hev hsize in
/-- An emission that is not taken in. -/
theorem kept_of_not_takes (ht : ¬r.Takes v) (x : ℕ) (hx : d.Has (x/64)) :
    ((deliver late r (m :: ms)).internalSync d evs).mem.ro x = r.kept m image x := by
  have hsound : (deliver late r (m :: ms)).Sound d := h.handleAll late (m :: ms) hwf
  rw [internalSync_ro hd hsound (deliver_booting late _ r hb).1 evs hev hsize x hx,
    (deliver_booting late _ r hb).2, Receiver.kept]
  cases hh : r.hasHeader
  · rw [deliver_no_header late _ r hh]
    simp only [hh, Bool.false_eq_true, false_and, ↓reduceIte]
  · cases he : r.enqueue
    · have hv : r.lastSyncExtV = v := by
        by_contra hne
        exact ht ⟨hh, he, hne⟩
      cases hp : r.pending
      · rw [deliver_drop late _ (fun n hn => (hs.mem hn).1.version_eq) r he hv hp]
        simp only [hh, hp, Bool.false_eq_true, and_false, and_true, true_and, ↓reduceIte]
      · obtain ⟨a, ha, heq⟩ := deliver_pending h m ms hs hm late hh he hv hp
        have hrw : (r.misplace (late m) m a).mem.rw x =
            if Covers [m.run] (x/64) then image x else r.mem.rw x := by
          simp only [Receiver.misplace, (NodeMem.receive_frame _ _ _ _).1,
            storeLines_image hs.1 ha]
        rw [heq, hrw]
        simp only [Receiver.misplace, hh, Bool.or_eq_true, true_and, and_true, ↓reduceIte]
    · obtain ⟨hp, ha⟩ := h.deferring he
      rw [deliver_queue late _ r hh he]
      simp only [hh, hp, ha, Bool.true_eq_false, Bool.false_eq_true, and_self, and_false,
        ↓reduceIte]

end

/-- Retransmission after a loss, for every state a remote area can get into: a
complete emission of `v`, whose lines cover everything modified since the version
the node reports, makes the RO payload that of `v` after the next internal sync
exactly when the receiver takes the emission in and still has the reported version
on the other lines, or does not take it in and ends up with `v` all the same. -/
theorem retransmission_repairs_iff (d : AreaDesc) (hd : d.Wf) (s : RemoteNode)
    (h : (remoteSystem d).Reachable s) (hb : s.r.booting = false) (P : ℕ → Mem) (v : ℕ)
    (m : MemMsg) (ms : List MemMsg) (hs : Stream d v (P v) 0 (m :: ms))
    (hm : Marked true (m :: ms)) (hwf : ∀ n ∈ m :: ms, n.Wf)
    (hcover : ∀ x, d.Payload x → ¬Covers ((m :: ms).map MemMsg.run) (x/64) →
      P s.areasV x = P v x)
    (late : MemMsg → Bool) (evs : List SyncEvent) (hev : Completes d evs)
    (hsize : SmallChunks evs) :
    (∀ x, d.Payload x →
      ((deliver late s.r (m :: ms)).internalSync d evs).mem.ro x = P v x) ↔
    (s.r.Takes v ∧ ∀ x, d.Payload x → ¬Covers ((m :: ms).map MemMsg.run) (x/64) →
      s.r.mem.rw x = P s.areasV x) ∨
    (¬s.r.Takes v ∧ ∀ x, d.Payload x → s.r.kept m (P v) x = P v x) := by
  have hsound := sound_reachable hd h
  by_cases ht : s.r.Takes v
  · have hro := repaired_of_takes hd hsound hb m ms hs hm hwf evs hev hsize late ht
    constructor
    · intro hall
      refine Or.inl ⟨ht, fun x hx hc => ?_⟩
      rw [hcover x hx hc, ← hall x hx, hro x (hx.has hd), if_neg hc]
    · rintro (⟨-, hkeep⟩ | ⟨hf, -⟩)
      · intro x hx
        rw [hro x (hx.has hd)]
        split_ifs with hc
        · rfl
        · rw [hkeep x hx hc, hcover x hx hc]
      · exact absurd ht hf
  · have hro := kept_of_not_takes hd hsound hb m ms hs hm hwf evs hev hsize late ht
    constructor
    · intro hall
      refine Or.inr ⟨ht, fun x hx => ?_⟩
      rw [← hro x (hx.has hd), hall x hx]
    · rintro (⟨hf, -⟩ | ⟨-, hkeep⟩)
      · exact absurd hf ht
      · intro x hx
        rw [hro x (hx.has hd), hkeep x hx]

/-- The payload of the small area: nothing at first, then version 1. -/
def firstVersions (v : ℕ) : Mem := if v = 0 then fun _ => 0 else firstImage

theorem firstMsgs_wf : ∀ m ∈ firstMsgs, m.Wf := by
  intro m hm
  simp only [firstMsgs, List.mem_cons, List.not_mem_nil, or_false] at hm
  rcases hm with rfl | rfl | rfl
  · exact ⟨513, 1, rfl, rfl, by norm_num, by norm_num⟩
  · exact ⟨533, 1, rfl, rfl, by norm_num, by norm_num⟩
  · exact ⟨535, 1, rfl, rfl, by norm_num, by norm_num⟩

theorem firstMsgs_cover (x : ℕ) (h : ¬Covers (firstMsgs.map MemMsg.run) (x/64)) :
    firstVersions 0 x = firstVersions 1 x := by
  have hno : ¬(x/64 = 513 ∨ x/64 = 533 ∨ x/64 = 535) := by
    rintro (hx | hx | hx)
    · exact h ⟨(513, 1), by decide, by omega, by omega⟩
    · exact h ⟨(533, 1), by decide, by omega, by omega⟩
    · exact h ⟨(535, 1), by decide, by omega, by omega⟩
  simp only [firstVersions, firstImage, hno, ↓reduceIte, one_ne_zero]

/-- A node that knows nothing of the area but, possibly, its place. -/
def newRemote (attached : Bool) : RemoteNode := ⟨{ newReceiver.r with hasHeader := attached }, 0⟩

theorem newRemote_fresh (d : AreaDesc) (attached : Bool) : (newRemote attached).Fresh d :=
  ⟨⟨rfl, rfl, rfl, rfl⟩, rfl, fun _ _ => rfl, fun _ _ h => absurd h List.not_mem_nil⟩

/-- The first message arrives and the others are lost. The owner sends the whole
version again: its first message does not match the byte count, the receiver
ignores the rest, and the payload lines stay missing. -/
theorem retransmission_ignored :
    ∃ (d : AreaDesc) (s : RemoteNode) (evs : List SyncEvent),
      d.Wf ∧ (remoteSystem d).Reachable s ∧ s.r.booting = false ∧
      Stream d 1 (firstVersions 1) 0 firstMsgs ∧ Marked true firstMsgs ∧
      (∀ x, d.Payload x → ¬Covers (firstMsgs.map MemMsg.run) (x/64) →
        firstVersions s.areasV x = firstVersions 1 x) ∧
      Completes d evs ∧ SmallChunks evs ∧ d.Payload (64*533) ∧
      ((deliver (fun _ => false) s.r firstMsgs).internalSync d evs).mem.ro (64*533) ≠
        firstVersions 1 (64*533) := by
  have hd : (⟨32768, 32768, false⟩ : AreaDesc).Wf :=
    ⟨by norm_num, by norm_num, by norm_num, by norm_num⟩
  have hinit : (remoteSystem ⟨32768, 32768, false⟩).Reachable (newRemote true) :=
    .init (newRemote_fresh _ _)
  have hreach := hinit.step (a := RemoteAct.recv (firstMsg 0 513) false false)
    (firstMsgs_wf _ List.mem_cons_self)
  have hev := completes_whole ⟨32768, 32768, false⟩ hd (by norm_num)
  have hpay : (⟨32768, 32768, false⟩ : AreaDesc).Payload (64*533) :=
    ⟨by norm_num [sizeofHeader], by norm_num⟩
  have hkept := kept_of_not_takes hd (sound_reachable hd hreach) rfl (firstMsg 0 513)
    [firstMsg 1 533, firstMsg 2 535] firstMsgs_stream firstMsgs_marked firstMsgs_wf _ hev
    (hev.smallChunks (by norm_num)) (fun _ => false) (fun ht => ht.2.2 rfl) (64*533) (hpay.has hd)
  refine ⟨_, _, _, hd, hreach, rfl, firstMsgs_stream, firstMsgs_marked,
    fun x _ => firstMsgs_cover x, hev, hev.smallChunks (by norm_num), hpay, ?_⟩
  intro heq
  exact absurd (hkept.symm.trans heq) (by decide)

/-- All of the version is lost because the area is not attached yet: then the
second emission makes up for it. -/
theorem retransmission_repairs_first :
    ∃ (d : AreaDesc) (s : RemoteNode) (evs : List SyncEvent),
      (remoteSystem d).Reachable s ∧ Completes d evs ∧ ∀ x, d.Payload x →
      ((deliver (fun _ => false) s.r firstMsgs).internalSync d evs).mem.ro x =
        firstVersions 1 x := by
  have hd : (⟨32768, 32768, false⟩ : AreaDesc).Wf :=
    ⟨by norm_num, by norm_num, by norm_num, by norm_num⟩
  have hinit : (remoteSystem ⟨32768, 32768, false⟩).Reachable (newRemote false) :=
    .init (newRemote_fresh _ _)
  have hlost := hinit.step (a := RemoteAct.recv (firstMsg 0 513) false false)
    (firstMsgs_wf _ List.mem_cons_self)
  have hreach := hlost.step (a := RemoteAct.learn) trivial
  have hev := completes_whole ⟨32768, 32768, false⟩ hd (by norm_num)
  have hiff := retransmission_repairs_iff _ hd _ hreach rfl firstVersions 1 (firstMsg 0 513)
    [firstMsg 1 533, firstMsg 2 535] firstMsgs_stream firstMsgs_marked firstMsgs_wf
    (fun x _ => firstMsgs_cover x) (fun _ => false) _ hev (hev.smallChunks (by norm_num))
  refine ⟨_, _, _, hreach, hev, ?_⟩
  unfold firstMsgs
  exact hiff.mpr (Or.inl ⟨⟨rfl, rfl, by decide⟩, fun _ _ _ => rfl⟩)

end Tasvir
