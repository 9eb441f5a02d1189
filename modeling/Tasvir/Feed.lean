import Mathlib.Tactic
import Tasvir.Sender
import Tasvir.Versions

/-! A node that may get to know an area late: what its copies have of the
emissions it has taken in since. -/
namespace Tasvir
open RunLength

/-- The lines a node has of an area, after an emission of version `v'` that
follows one of version `v`; a version it has is dropped. -/
def carried (lines : Set ℕ) (v v' : ℕ) (ms : List MemMsg) : Set ℕ :=
  {l | l ∈ lines ∨ v ≠ v' ∧ Covers (ms.map MemMsg.run) l}

/-- A sequence of whole emissions, with the lines a node has before and after;
`need` tells the lines that it must have from a version on. -/
inductive Feed (d : AreaDesc) (pub : ℕ → Mem) (need : ℕ → Set ℕ) :
    Set ℕ → Mem → ℕ → List MemMsg → Set ℕ → Mem → ℕ → Prop
  | nil (lines : Set ℕ) (img : Mem) (v : ℕ) : Feed d pub need lines img v [] lines img v
  | cons {lines lines' : Set ℕ} {img img' img'' : Mem} {v v' v'' : ℕ} {ms q : List MemMsg} :
    Follows d pub img v img' v' ms → need v' ⊆ carried lines v v' ms →
    Feed d pub need (carried lines v v' ms) img' v' q lines' img'' v'' →
    Feed d pub need lines img v (ms ++ q) lines' img'' v''

section
variable {d : AreaDesc} {pub pub' : ℕ → Mem} {need need' : ℕ → Set ℕ} {lines lines' : Set ℕ}
variable {img img' : Mem} {v v' : ℕ} {q : List MemMsg}

theorem Feed.le (h : Feed d pub need lines img v q lines' img' v') : v ≤ v' := by
  induction h with
  | nil => exact le_rfl
  | cons hf _ _ ih => exact hf.le.trans ih

theorem Feed.snoc (h : Feed d pub need lines img v q lines' img' v') {img'' : Mem} {v'' : ℕ}
    {ms : List MemMsg} (hf : Follows d pub img' v' img'' v'' ms)
    (hn : need v'' ⊆ carried lines' v' v'' ms) :
    Feed d pub need lines img v (q ++ ms) (carried lines' v' v'' ms) img'' v'' := by
  induction h with
  | nil =>
    have hfeed := Feed.cons hf hn (.nil _ _ _)
    rwa [List.append_nil] at hfeed
  | cons hg hm _ ih =>
    rw [List.append_assoc]
    exact .cons hg hm (ih hf hn)

/-- Later versions do not touch the sequence. -/
theorem Feed.record (h : Feed d pub need lines img v q lines' img' v')
    (hp : ∀ w ≤ v', pub' w = pub w ∧ need' w = need w) :
    Feed d pub' need' lines img v q lines' img' v' := by
  induction h with
  | nil => exact .nil _ _ _
  | cons hf hn hq ih =>
    obtain ⟨hpub, hneed⟩ := hp _ hq.le
    refine .cons ⟨hf.stream, hf.marked, hf.wf, hf.pos, hf.le, hf.same, hf.covers, ?_⟩ ?_ (ih hp)
    · rw [Snapshot, hpub]
      exact hf.published
    · rw [hneed]
      exact hn

theorem Feed.needs (h : Feed d pub need lines img v q lines' img' v') (hn : need v ⊆ lines) :
    need v' ⊆ lines' := by
  induction h with
  | nil => exact hn
  | cons _ hm _ ih => exact ih hm

theorem Feed.wf (h : Feed d pub need lines img v q lines' img' v') : ∀ m ∈ q, m.Wf := by
  induction h with
  | nil => exact fun m hm => absurd hm List.not_mem_nil
  | cons hf _ _ ih =>
    intro m hm
    rcases List.mem_append.mp hm with hm | hm
    · exact hf.wf m hm
    · exact ih m hm

/-- As long as nothing is needed the node may start with no line at all. -/
theorem Feed.restart (h : Feed d pub need lines img v q lines' img' v') (hn : ∀ w, need w = ∅)
    (start : Set ℕ) : ∃ lines'', Feed d pub need start img v q lines'' img' v' := by
  induction h generalizing start with
  | nil => exact ⟨start, .nil _ _ _⟩
  | cons hf _ _ ih =>
    obtain ⟨lines'', hfeed⟩ := ih (carried start _ _ _)
    refine ⟨lines'', .cons hf ?_ hfeed⟩
    rw [hn]
    exact Set.empty_subset _

end

/-- A place in the sequence of messages: `rest` is still to come of the emission
of version `v`, `p` bytes of which have gone by, and then come the whole emissions `q`. -/
structure Place (d : AreaDesc) (pub : ℕ → Mem) (need : ℕ → Set ℕ) (lines : Set ℕ) (img : Mem)
    (v p : ℕ) (rest q : List MemMsg) (lines' : Set ℕ) (img' : Mem) (v' : ℕ) : Prop where
  wf : ∀ m ∈ rest, m.Wf
  stream : Stream d v img p rest
  marked : rest ≠ [] → Marked true rest ∧ 0 < p ∧ v ≠ 0
  feed : Feed d pub need lines img v q lines' img' v'
  published : v ≠ 0 → Snapshot d pub v img
  needs : need v ⊆ lines

section
variable {d : AreaDesc} {pub pub' : ℕ → Mem} {need need' : ℕ → Set ℕ} {lines lines' : Set ℕ}
variable {img img' : Mem} {v v' p : ℕ} {rest q : List MemMsg}

theorem Place.record (h : Place d pub need lines img v p rest q lines' img' v')
    (hp : ∀ w ≤ v', pub' w = pub w ∧ need' w = need w) :
    Place d pub' need' lines img v p rest q lines' img' v' := by
  obtain ⟨hpub, hneed⟩ := hp v h.feed.le
  refine ⟨h.wf, h.stream, h.marked, h.feed.record hp, ?_, ?_⟩
  · rw [Snapshot, hpub]
    exact h.published
  · rw [hneed]
    exact h.needs

/-- The next message is the next one of its emission, or the first of the next. -/
theorem Place.next (h : Place d pub need lines img v p rest q lines' img' v') {m : MemMsg}
    {net : List MemMsg} (hnet : rest ++ q = m :: net) :
    (∃ rest', rest = m :: rest' ∧ net = rest' ++ q ∧
      Place d pub need lines img v (p+m.len) rest' q lines' img' v') ∨
    (rest = [] ∧ ∃ img₂ v₂ ms q', net = ms ++ q' ∧ Follows d pub img v img₂ v₂ (m :: ms) ∧
      Place d pub need (carried lines v v₂ (m :: ms)) img₂ v₂ m.len ms q' lines' img' v') := by
  cases rest with
  | cons m' rest =>
    left
    rw [List.cons_append, List.cons.injEq] at hnet
    obtain ⟨rfl, rfl⟩ := hnet
    obtain ⟨hmark, hp, hv⟩ := h.marked (List.cons_ne_nil _ _)
    refine ⟨rest, rfl, rfl, fun n hn => h.wf n (List.mem_cons_of_mem _ hn), h.stream.2, ?_, h.feed,
      h.published, h.needs⟩
    intro hne
    obtain ⟨n, rest', rfl⟩ := List.exists_cons_of_ne_nil hne
    exact ⟨hmark.tail, Nat.add_pos_left hp _, hv⟩
  | nil =>
    right
    refine ⟨rfl, ?_⟩
    have hfeed := h.feed
    rw [List.nil_append] at hnet
    cases hfeed with
    | nil => exact absurd hnet.symm (List.cons_ne_nil _ _)
    | @cons _ _ _ img₂ _ _ v₂ _ ms q' hf hn hq =>
      cases ms with
      | nil =>
        obtain ⟨ms, z, hnil, -⟩ := hf.marked
        exact absurd hnil (by simp)
      | cons m' ms =>
        rw [List.cons_append, List.cons.injEq] at hnet
        obtain ⟨rfl, rfl⟩ := hnet
        have hst := hf.stream.2
        rw [Nat.zero_add] at hst
        refine ⟨img₂, v₂, ms, q', rfl, hf, fun n hn => hf.wf n (List.mem_cons_of_mem _ hn), hst, ?_,
          hq, fun _ => hf.published, hn⟩
        intro hne
        obtain ⟨n, ms', rfl⟩ := List.exists_cons_of_ne_nil hne
        obtain ⟨-, hlen, -⟩ := hf.stream.mem List.mem_cons_self
        exact ⟨hf.marked.tail, hlen, Nat.pos_iff_ne_zero.mp hf.pos⟩

end

/-- Messages do not touch what the node knows of itself and of the descriptor. -/
theorem handle_ready (late full : Bool) (r : Receiver) (m : MemMsg) :
    (r.handleMsgMem late full m).hasHeader = r.hasHeader ∧
    (r.handleMsgMem late full m).booting = r.booting := by
  have henter : (r.enter m).hasHeader = r.hasHeader ∧ (r.enter m).booting = r.booting := by
    unfold Receiver.enter
    split_ifs <;> exact ⟨rfl, rfl⟩
  have hcheck (r : Receiver) : (r.checkBytes m).hasHeader = r.hasHeader ∧
      (r.checkBytes m).booting = r.booting := by
    unfold Receiver.checkBytes
    split_ifs <;> exact ⟨rfl, rfl⟩
  have hstore (r : Receiver) : (r.store m).hasHeader = r.hasHeader ∧
      (r.store m).booting = r.booting := by
    unfold Receiver.store
    cases m.addr <;> exact ⟨rfl, rfl⟩
  have hfinish (r : Receiver) : (r.finish late m).hasHeader = r.hasHeader ∧
      (r.finish late m).booting = r.booting := by
    unfold Receiver.finish
    split_ifs <;> exact ⟨rfl, rfl⟩
  unfold Receiver.handleMsgMem
  split_ifs
  · exact ⟨rfl, rfl⟩
  · exact ⟨rfl, rfl⟩
  · exact ⟨rfl, rfl⟩
  · simp only
    split_ifs
    · exact henter
    · rw [(hfinish _).1, (hfinish _).2, (hstore _).1, (hstore _).2, (hcheck _).1, (hcheck _).2]
      exact henter

theorem internalSync_ready (d : AreaDesc) (evs : List SyncEvent) (r : Receiver) :
    (r.internalSync d evs).hasHeader = r.hasHeader ∧
    (r.internalSync d evs).booting = r.booting := by
  have hfold (ms : List MemMsg) (r : Receiver) :
      (ms.foldl (Receiver.handleMsgMem false false) r).hasHeader = r.hasHeader ∧
      (ms.foldl (Receiver.handleMsgMem false false) r).booting = r.booting := by
    induction ms generalizing r with
    | nil => exact ⟨rfl, rfl⟩
    | cons m ms ih =>
      obtain ⟨h1, h2⟩ := handle_ready false false r m
      obtain ⟨h3, h4⟩ := ih (r.handleMsgMem false false m)
      exact ⟨h3.trans h1, h4.trans h2⟩
  have hjob : (r.syncJob d evs).hasHeader = r.hasHeader ∧
      (r.syncJob d evs).booting = r.booting := by
    unfold Receiver.syncJob
    split_ifs <;> exact ⟨rfl, rfl⟩
  obtain ⟨h1, h2⟩ := hfold (r.syncJob d evs).ring { r.syncJob d evs with ring := [] }
  exact ⟨h1.trans hjob.1, h2.trans hjob.2⟩

/-- What a receiver has of the emission it is in: it has handled none yet, it has
it all or has missed some of it, or it has taken in all that has come so far. -/
def Receiver.Holds (d : AreaDesc) (r : Receiver) (lines : Set ℕ) (img : Mem) (v p : ℕ)
    (rest : List MemMsg) : Prop :=
  (r.lastSyncExtV = 0 ∧ r.pending = false ∧ (r.hasHeader = true → lines = ∅)) ∨
  (r.hasHeader = true ∧ r.lastSyncExtV = v ∧ v ≠ 0 ∧ r.pending = false ∧
    ∀ x, d.Tracked x → x/64 ∈ lines → r.mem.rw x = img x) ∨
  (r.hasHeader = true ∧ r.lastSyncExtV = v ∧ r.pending = true ∧ r.lastSyncExtBytes = p ∧ rest ≠ [] ∧
    ∀ x, d.Tracked x → x/64 ∈ lines → ¬Covers (rest.map MemMsg.run) (x/64) → r.mem.rw x = img x)

/-- A receiver with the messages `net` on their way to it. -/
structure FeedInv (d : AreaDesc) (pub : ℕ → Mem) (need : ℕ → Set ℕ) (lines : Set ℕ) (img : Mem)
    (v : ℕ) (r : Receiver) (net : List MemMsg) : Prop where
  sound : r.Sound d
  empty : r.enqueue = false → r.ring = []
  attached : r.enqueue = true → r.hasHeader = true
  place : ∃ lines₁ img₁ v₁ p rest q, r.ring ++ net = rest ++ q ∧
    Place d pub need lines₁ img₁ v₁ p rest q lines img v ∧ r.Holds d lines₁ img₁ v₁ p rest
  version : r.mem.rw (d.h+offVersion) ≤ r.lastSyncExtV ∧ r.mem.ro (d.h+offVersion) ≤ r.lastSyncExtV
  view : ∀ x, d.Tracked x → x/64 ∈ need (r.mem.ro (d.h+offVersion)) →
    r.mem.ro x = pub (r.mem.ro (d.h+offVersion)) x
  /-- nothing is needed before the node is up and knows the area -/
  away : r.hasHeader = false ∨ r.booting = true → ∀ w, need w = ∅
  /-- with any line the one of the version is needed -/
  header : ∀ w w', w ≤ w' → (need w).Nonempty → (d.h+offVersion)/64 ∈ need w'

section
variable {d : AreaDesc} {pub pub' : ℕ → Mem} {need need' : ℕ → Set ℕ} {lines : Set ℕ} {img : Mem}
variable {v : ℕ} {r : Receiver} {net : List MemMsg}

theorem Receiver.Holds.le {lines₁ : Set ℕ} {img₁ : Mem} {v₁ p : ℕ} {rest : List MemMsg}
    (h : r.Holds d lines₁ img₁ v₁ p rest) : r.lastSyncExtV ≤ v₁ := by
  rcases h with ⟨h0, -⟩ | ⟨-, h0, -⟩ | ⟨-, h0, -⟩
  · rw [h0]
    exact Nat.zero_le _
  · exact le_of_eq h0
  · exact le_of_eq h0

/-- The receiver is not ahead of the last emission. -/
theorem FeedInv.le (h : FeedInv d pub need lines img v r net) : r.lastSyncExtV ≤ v := by
  obtain ⟨lines₁, img₁, v₁, p, rest, q, -, hplace, hold⟩ := h.place
  exact hold.le.trans hplace.feed.le

theorem FeedInv.record (h : FeedInv d pub need lines img v r net)
    (hp : ∀ w ≤ v, pub' w = pub w ∧ need' w = need w)
    (haway : r.hasHeader = false ∨ r.booting = true → ∀ w, need' w = ∅)
    (hheader : ∀ w w', w ≤ w' → (need' w).Nonempty → (d.h+offVersion)/64 ∈ need' w') :
    FeedInv d pub' need' lines img v r net := by
  obtain ⟨lines₁, img₁, v₁, p, rest, q, hnet, hplace, hold⟩ := h.place
  obtain ⟨hpub, hneed⟩ := hp _ (h.version.2.trans h.le)
  refine ⟨h.sound, h.empty, h.attached, ⟨lines₁, img₁, v₁, p, rest, q, hnet, hplace.record hp, hold⟩,
    h.version, ?_, haway, hheader⟩
  rw [hpub, hneed]
  exact h.view

theorem FeedInv.extend (h : FeedInv d pub need lines img v r net) {img' : Mem} {v' : ℕ}
    {ms : List MemMsg} (hf : Follows d pub img v img' v' ms) (hn : need v' ⊆ carried lines v v' ms) :
    FeedInv d pub need (carried lines v v' ms) img' v' r (net ++ ms) := by
  obtain ⟨lines₁, img₁, v₁, p, rest, q, hnet, hplace, hold⟩ := h.place
  refine ⟨h.sound, h.empty, h.attached, ⟨lines₁, img₁, v₁, p, rest, q ++ ms, ?_, ⟨hplace.wf,
    hplace.stream, hplace.marked, hplace.feed.snoc hf hn, hplace.published, hplace.needs⟩, hold⟩,
    h.version, h.view, h.away, h.header⟩
  rw [← List.append_assoc, hnet, List.append_assoc]

theorem FeedInv.needs (h : FeedInv d pub need lines img v r net) : need v ⊆ lines := by
  obtain ⟨lines₁, img₁, v₁, p, rest, q, -, hplace, -⟩ := h.place
  exact hplace.feed.needs hplace.needs

/-- The descriptor arrives: the node starts with no line of the area. -/
theorem FeedInv.learn (h : FeedInv d pub need lines img v r net) (hh : r.hasHeader = false) :
    ∃ lines', FeedInv d pub need lines' img v { r with hasHeader := true } net := by
  obtain ⟨lines₁, img₁, v₁, p, rest, q, hnet, hplace, hold⟩ := h.place
  have hnone := h.away (Or.inl hh)
  have hidle : r.lastSyncExtV = 0 ∧ r.pending = false := by
    rcases hold with ⟨h0, hp, -⟩ | ⟨hf, -⟩ | ⟨hf, -⟩
    · exact ⟨h0, hp⟩
    · rw [hh] at hf
      exact Bool.noConfusion hf
    · rw [hh] at hf
      exact Bool.noConfusion hf
  obtain ⟨lines', hfeed⟩ := hplace.feed.restart hnone ∅
  refine ⟨lines', ⟨h.sound.awake, h.sound.clean, h.sound.lists, h.sound.deferring, h.sound.skipping,
    h.sound.counted, h.sound.queued⟩, h.empty, fun _ => rfl, ⟨∅, img₁, v₁, p, rest, q, hnet, ⟨hplace.wf,
    hplace.stream, hplace.marked, hfeed, hplace.published, ?_⟩, Or.inl ⟨hidle.1, hidle.2, fun _ => rfl⟩⟩,
    h.version, h.view, fun _ => hnone, h.header⟩
  rw [hnone]

theorem FeedInv.boot (h : FeedInv d pub need lines img v r net) :
    FeedInv d pub need lines img v { r with booting := false } net := by
  refine ⟨⟨h.sound.awake, h.sound.clean, h.sound.lists, h.sound.deferring, h.sound.skipping,
    h.sound.counted, h.sound.queued⟩, h.empty, h.attached, h.place, h.version, h.view, ?_, h.header⟩
  rintro (hh | hb)
  · exact h.away (Or.inl hh)
  · exact Bool.noConfusion hb

/-- The copies after a message with the version `v₂` is written. -/
theorem FeedInv.stored (h : FeedInv d pub need lines img v r net) {m : MemMsg} {a v₂ prev : ℕ}
    {img₂ : Mem} (hwf : m.Wf) (ha : m.addr = some a) (hf : m.Fragment d v₂ img₂ prev)
    (hver : img₂ (d.h+offVersion) = v₂) (hle : r.lastSyncExtV ≤ v₂) :
    ((r.mem.receive r.booting m a).rw (d.h+offVersion) ≤ v₂ ∧
      (r.mem.receive r.booting m a).ro (d.h+offVersion) ≤ v₂) ∧
    ∀ x, d.Tracked x → x/64 ∈ need ((r.mem.receive r.booting m a).ro (d.h+offVersion)) →
      (r.mem.receive r.booting m a).ro x =
        pub ((r.mem.receive r.booting m a).ro (d.h+offVersion)) x := by
  obtain ⟨hrw, hro, -, -⟩ := r.mem.receive_frame r.booting m a
  have hmsg := hf.versionLe (le_of_eq hver)
  rw [hrw, hro]
  refine ⟨⟨storeLines_version hwf hmsg ha (h.version.1.trans hle), ?_⟩, ?_⟩
  · split_ifs
    · exact storeLines_version hwf hmsg ha (h.version.2.trans hle)
    · exact h.version.2.trans hle
  · cases hb : r.booting
    · rw [if_neg Bool.false_ne_true]
      exact h.view
    · intro x _ hx
      rw [h.away (Or.inr hb)] at hx
      exact absurd hx (Set.notMem_empty _)

/-- A message in its place is taken in. -/
theorem FeedInv.accept (h : FeedInv d pub need lines img v r net) (late : Bool) (m : MemMsg)
    {lines₂ : Set ℕ} {img₂ : Mem} {v₂ : ℕ} {ms q : List MemMsg} (hh : r.hasHeader = true)
    (he : r.enqueue = false) (hin : r.InPlace m) (hwf : m.Wf)
    (hf : m.Fragment d v₂ img₂ m.prevBytes) (hmark : Marked true (m :: ms)) (hv : v₂ ≠ 0)
    (hle : r.lastSyncExtV ≤ v₂)
    (hplace : Place d pub need lines₂ img₂ v₂ (m.prevBytes+m.len) ms q lines img v)
    (hrw : ∀ x, d.Tracked x → x/64 ∈ lines₂ → ¬Covers ((m :: ms).map MemMsg.run) (x/64) →
      r.mem.rw x = img₂ x) :
    FeedInv d pub need lines img v (r.handleMsgMem late false m) (ms ++ q) := by
  obtain ⟨a, n, ha, -⟩ := hf.lines
  have hver := hf.version_eq
  have hlast := Marked.last_iff (p := []) hmark
  have hsound := h.sound.handle late false hwf
  obtain ⟨hversion, hview⟩ := h.stored hwf ha hf (hplace.published hv).1 hle
  rw [handle_accept late false r m (64*a) hh he ha hin] at hsound ⊢
  have hdone : ∀ x, d.Tracked x → x/64 ∈ lines₂ → ¬Covers (ms.map MemMsg.run) (x/64) →
      (r.accept late m (64*a)).mem.rw x = img₂ x :=
    fun x hx hl => accept_done hf ha r late (hrw x hx hl)
  refine ⟨hsound, fun _ => h.empty he, fun _ => hh, ⟨lines₂, img₂, v₂, m.prevBytes+m.len, ms, q, ?_,
    hplace, ?_⟩, ?_, hview, h.away, h.header⟩
  · simp only [Receiver.accept, h.empty he, List.nil_append]
  · right
    -- the version is complete with its last message, else the rest of it follows
    cases ms with
    | nil =>
      left
      refine ⟨hh, hver, hv, ?_, fun x hx hl => hdone x hx hl (covers_nil _)⟩
      simp only [Receiver.accept, hlast.mpr rfl, Bool.not_true]
    | cons n ms =>
      right
      have hl : m.last = false := by
        rw [← Bool.not_eq_true]
        exact fun hl => List.cons_ne_nil _ _ (hlast.mp hl)
      refine ⟨hh, hver, ?_, rfl, List.cons_ne_nil _ _, hdone⟩
      simp only [Receiver.accept, hl, Bool.not_false]
  · simp only [Receiver.accept, hver]
    exact hversion

/-- The first message a node handles is one from the middle of an emission: it is
written all the same, and the rest of the emission is dropped. -/
theorem FeedInv.misplace (h : FeedInv d pub need lines img v r net) (late : Bool) (m : MemMsg)
    {img₂ : Mem} {v₂ p : ℕ} {ms q : List MemMsg} (hh : r.hasHeader = true)
    (he : r.enqueue = false) (hzero : r.lastSyncExtV = 0) (hwf : m.Wf)
    (hf : m.Fragment d v₂ img₂ m.prevBytes) (hbytes : 0 < m.prevBytes) (hv : v₂ ≠ 0)
    (hplace : Place d pub need ∅ img₂ v₂ p ms q lines img v) :
    FeedInv d pub need lines img v (r.handleMsgMem late false m) (ms ++ q) := by
  obtain ⟨a, n, ha, -⟩ := hf.lines
  have hver := hf.version_eq
  have hne : r.lastSyncExtV ≠ m.version := by
    rw [hzero, hver]
    exact hv.symm
  have hplaced : ¬r.InPlace m := by
    rintro (⟨-, h0⟩ | ⟨heq, -⟩)
    · omega
    · exact hne heq
  have hmis : r.handleMsgMem late false m = r.misplace late m (64*a) := by
    rcases handle_cases late false r m (64*a) ha h.sound.skipping with ⟨hf, -⟩ | ⟨-, hf, -⟩ |
      ⟨-, hf, -⟩ | ⟨-, -, hf, -⟩ | ⟨-, -, hf, -⟩ | ⟨-, -, -, -, heq⟩
    · rw [hh] at hf
      exact Bool.noConfusion hf
    · rw [he] at hf
      exact Bool.noConfusion hf
    · rw [he] at hf
      exact Bool.noConfusion hf
    · exact absurd hf hne
    · exact absurd hf hplaced
    · exact heq
  have hsound := h.sound.handle late false hwf
  obtain ⟨hversion, hview⟩ := h.stored hwf ha hf (hplace.published hv).1
    (by rw [hzero]; exact Nat.zero_le _)
  rw [hmis] at hsound ⊢
  refine ⟨hsound, fun _ => h.empty he, fun _ => hh, ⟨∅, img₂, v₂, p, ms, q, ?_, hplace,
    Or.inr (Or.inl ⟨hh, hver, hv, rfl, fun x _ hl => absurd hl (Set.notMem_empty _)⟩)⟩, ?_, hview, h.away,
    h.header⟩
  · simp only [Receiver.misplace, h.empty he, List.nil_append]
  · simp only [Receiver.misplace, hver]
    exact hversion

/-- A message that changes nothing. -/
theorem FeedInv.drop (h : FeedInv d pub need lines img v r net) (he : r.enqueue = false)
    {lines₂ : Set ℕ} {img₂ : Mem} {v₂ p : ℕ} {ms q : List MemMsg}
    (hplace : Place d pub need lines₂ img₂ v₂ p ms q lines img v)
    (hold : r.Holds d lines₂ img₂ v₂ p ms) : FeedInv d pub need lines img v r (ms ++ q) := by
  refine ⟨h.sound, h.empty, h.attached, ⟨lines₂, img₂, v₂, p, ms, q, ?_, hplace, hold⟩, h.version,
    h.view, h.away, h.header⟩
  rw [h.empty he, List.nil_append]

/-- The next message, with nothing deferred. -/
theorem FeedInv.handle (late : Bool) (m : MemMsg) (h : FeedInv d pub need lines img v r (m :: net))
    (he : r.enqueue = false) :
    FeedInv d pub need lines img v (r.handleMsgMem late false m) net := by
  obtain ⟨lines₁, img₁, v₁, p, rest, q, hnet, hplace, hold⟩ := h.place
  rw [h.empty he, List.nil_append] at hnet
  have hle := hold.le
  have hnext := hplace.next hnet.symm
  cases hh : r.hasHeader
  · -- a node that does not know the area drops everything
    have hdrop : r.handleMsgMem late false m = r := by
      simp only [Receiver.handleMsgMem, hh, Bool.not_false, ↓reduceIte]
    have hidle (ls : Set ℕ) (im : Mem) (w k : ℕ) (ns : List MemMsg) : r.Holds d ls im w k ns := by
      rcases hold with ⟨h0, hp, -⟩ | ⟨hf, -⟩ | ⟨hf, -⟩
      · exact Or.inl ⟨h0, hp, fun hf => by rw [hh] at hf; exact Bool.noConfusion hf⟩
      · rw [hh] at hf
        exact Bool.noConfusion hf
      · rw [hh] at hf
        exact Bool.noConfusion hf
    rw [hdrop]
    rcases hnext with ⟨rest', -, rfl, hp'⟩ | ⟨-, img₂, v₂, ms, q', rfl, -, hp'⟩
    · exact h.drop he hp' (hidle _ _ _ _ _)
    · exact h.drop he hp' (hidle _ _ _ _ _)
  rcases hnext with ⟨rest', rfl, rfl, hp'⟩ | ⟨rfl, img₂, v₂, ms, q', rfl, hf, hp'⟩
  · -- within an emission
    obtain ⟨hmark, hpos, hv⟩ := hplace.marked (List.cons_ne_nil _ _)
    have hfrag := hplace.stream.1
    have hprev := hfrag.prev_eq
    have hwf := hplace.wf m List.mem_cons_self
    rw [← hprev] at hfrag
    rcases hold with ⟨h0, -, hnone⟩ | ⟨-, hv', -, hp, hrw⟩ | ⟨-, hv', hp, hbytes, -, hrw⟩
    · rw [hnone hh] at hp'
      exact h.misplace late m hh he h0 hwf hfrag (by omega) hv hp'
    · rw [handle_drop late false r m he (hv'.trans hfrag.version_eq.symm) (Or.inr hp)]
      exact h.drop he hp' (Or.inr (Or.inl ⟨hh, hv', hv, hp, hrw⟩))
    · have hi : r.ignore = false := by
        rw [← Bool.not_eq_true]
        intro hi
        rw [h.sound.skipping hi] at hp
        exact Bool.noConfusion hp
      rw [← hprev] at hp' hbytes
      exact h.accept late m hh he (Or.inr ⟨hv'.trans hfrag.version_eq.symm, hp, hi, hbytes⟩) hwf hfrag
        hmark hv hle hp' hrw
  · -- the first message of an emission
    have hfrag := hf.stream.1
    have hprev := hfrag.prev_eq
    have hwf := hf.wf m List.mem_cons_self
    have hv : v₂ ≠ 0 := Nat.pos_iff_ne_zero.mp hf.pos
    have hbytes : m.len = m.prevBytes+m.len := by omega
    rcases hold with ⟨h0, -, hnone⟩ | ⟨-, hv', -, hp, hrw⟩ | ⟨-, -, -, -, hne, -⟩
    · rw [hbytes] at hp'
      rw [← hprev] at hfrag
      refine h.accept late m hh he (Or.inl ⟨?_, hprev⟩) hwf hfrag hf.marked hv (hle.trans hf.le) hp' ?_
      · rw [h0, hfrag.version_eq]
        exact hv.symm
      · intro x _ hl hc
        rw [hnone hh] at hl
        rcases hl with hl | hl
        · exact absurd hl (Set.notMem_empty _)
        · exact absurd hl.2 hc
    · by_cases heq : v₁ = v₂
      · -- the version is there already
        rw [handle_drop late false r m he (hv'.trans (heq.trans hfrag.version_eq.symm)) (Or.inr hp)]
        refine h.drop he hp' (Or.inr (Or.inl ⟨hh, hv'.trans heq, hv, hp, ?_⟩))
        intro x hx hl
        rcases hl with hl | hl
        · rw [hrw x hx hl, hf.same heq x hx]
        · exact absurd heq hl.1
      · rw [hbytes] at hp'
        rw [← hprev] at hfrag
        refine h.accept late m hh he (Or.inl ⟨?_, hprev⟩) hwf hfrag hf.marked hv (hle.trans hf.le) hp' ?_
        · rw [hv', hfrag.version_eq]
          exact heq
        · intro x hx hl hc
          rcases hl with hl | hl
          · rw [hrw x hx hl]
            by_contra hne
            exact hc (hf.covers x hx hne)
          · exact absurd hl.2 hc
    · exact absurd rfl hne

/-- Every message on its way is well formed. -/
theorem FeedInv.head_wf (m : MemMsg) (h : FeedInv d pub need lines img v r (m :: net)) : m.Wf := by
  obtain ⟨lines₁, img₁, v₁, p, rest, q, hnet, hplace, -⟩ := h.place
  have hm : m ∈ rest ++ q := by
    rw [← hnet]
    exact List.mem_append_right _ List.mem_cons_self
  rcases List.mem_append.mp hm with hm | hm
  · exact hplace.wf m hm
  · exact hplace.feed.wf m hm

/-- The next message, deferred behind others. -/
theorem FeedInv.defer (late : Bool) (m : MemMsg) (h : FeedInv d pub need lines img v r (m :: net))
    (he : r.enqueue = true) : FeedInv d pub need lines img v (r.handleMsgMem late false m) net := by
  have hsound := h.sound.handle late false (h.head_wf m)
  rw [handle_queue late r m (h.attached he) he] at hsound ⊢
  obtain ⟨lines₁, img₁, v₁, p, rest, q, hnet, hrest⟩ := h.place
  refine ⟨hsound, ?_, h.attached, ⟨lines₁, img₁, v₁, p, rest, q, ?_, hrest⟩, h.version, h.view, h.away,
    h.header⟩
  · intro hf
    simp only [he, Bool.true_eq_false] at hf
  · rw [List.append_assoc]
    exact hnet

/-- Step lemma for a message. -/
theorem FeedInv.recv (late : Bool) (m : MemMsg) (h : FeedInv d pub need lines img v r (m :: net)) :
    FeedInv d pub need lines img v (r.handleMsgMem late false m) net := by
  cases he : r.enqueue
  · exact h.handle late m he
  · exact h.defer late m he

/-- Run lemma for the deferred messages. -/
theorem FeedInv.drain (ms : List MemMsg) (h : FeedInv d pub need lines img v r (ms ++ net)) :
    FeedInv d pub need lines img v (ms.foldl (Receiver.handleMsgMem false false) r) net := by
  induction ms generalizing r with
  | nil => exact h
  | cons m ms ih => exact ih (h.recv false m)

/-- Where any line is needed of the RW version, the RW copy has the whole of it. -/
theorem FeedInv.complete (h : FeedInv d pub need lines img v r net) (hp : r.pending = false)
    {w : ℕ} (hw : w ≤ r.lastSyncExtV) (hne : (need w).Nonempty) :
    r.mem.rw (d.h+offVersion) = r.lastSyncExtV ∧ r.hasHeader = true ∧
    ∀ x, d.Tracked x → x/64 ∈ need r.lastSyncExtV → r.mem.rw x = pub r.lastSyncExtV x := by
  obtain ⟨lines₁, img₁, v₁, p, rest, q, -, hplace, hold⟩ := h.place
  have hh : r.hasHeader = true := by
    rw [← Bool.not_eq_false]
    intro hf
    rw [h.away (Or.inl hf)] at hne
    exact Set.not_nonempty_empty hne
  have hline := hplace.needs (h.header w v₁ (hw.trans hold.le) hne)
  rcases hold with ⟨-, -, hnone⟩ | ⟨-, hv, h0, -, hrw⟩ | ⟨-, -, hf, -⟩
  · rw [hnone hh] at hline
    exact absurd hline (Set.notMem_empty _)
  · obtain ⟨hversion, hpub⟩ := hplace.published h0
    rw [hv]
    refine ⟨?_, hh, ?_⟩
    · rw [hrw _ (Or.inr rfl) hline, hversion]
    · intro x hx hl
      rw [hrw x hx (hplace.needs hl), hpub x hx]
  · rw [hp] at hf
    exact Bool.noConfusion hf

variable (hd : d.Wf) (hpos : 0 < d.offsetLogEnd)
include hd hpos

theorem FeedInv.syncJob (h : FeedInv d pub need lines img v r net) (evs : List SyncEvent)
    (hev : Completes d evs) (hsize : SmallChunks evs) (hs : r.scheduled = true) :
    FeedInv d pub need lines img v { r.syncJob d evs with ring := [] } (r.ring ++ net) := by
  obtain ⟨hsound, hro⟩ := h.sound.syncJob hd evs hev hsize
  have hro := hro hs
  have hrw := rw_events d false evs r.mem
  have hp : r.pending = false := by
    simp only [Receiver.scheduled, Bool.and_eq_true, Bool.not_eq_true', Bool.or_eq_false_iff] at hs
    exact hs.2.1
  have hcell : ∀ x, d.Tracked x → (syncEvents d false r.mem evs).ro x = r.mem.rw x := by
    intro x hx
    have hx' := hro x (hx.has hd hpos)
    rwa [Receiver.syncJob, if_pos hs] at hx'
  have hver := hcell (d.h+offVersion) (Or.inr rfl)
  have hempty : Receiver.Sound d { r.syncJob d evs with ring := [] } :=
    ⟨hsound.awake, hsound.clean, hsound.lists, hsound.deferring, hsound.skipping, hsound.counted,
      fun m hm => absurd hm List.not_mem_nil⟩
  rw [Receiver.syncJob, if_pos hs] at hempty ⊢
  obtain ⟨lines₁, img₁, v₁, p, rest, q, hnet, hplace, hold⟩ := h.place
  refine ⟨hempty, fun _ => rfl, fun hf => Bool.noConfusion hf, ⟨lines₁, img₁, v₁, p, rest, q, hnet,
    hplace, ?_⟩, ?_, ?_, h.away, h.header⟩
  · simp only [Receiver.Holds, hrw]
    exact hold
  · simp only [hrw, hver]
    exact ⟨h.version.1, h.version.1⟩
  · intro x hx hl
    simp only [hver] at hl ⊢
    obtain ⟨heq, -, hpub⟩ := h.complete hp h.version.1 ⟨_, hl⟩
    rw [heq] at hl ⊢
    rw [hcell x hx]
    exact hpub x hx hl

/-- Step lemma for a sync on the node. -/
theorem FeedInv.sync (h : FeedInv d pub need lines img v r net) (evs : List SyncEvent)
    (hev : Completes d evs) (hsize : SmallChunks evs) :
    FeedInv d pub need lines img v (r.internalSync d evs) net := by
  by_cases hs : r.scheduled = true
  · have hring : (r.syncJob d evs).ring = r.ring := by
      rw [Receiver.syncJob, if_pos hs]
    rw [Receiver.internalSync, Receiver.drain, hring]
    exact (h.syncJob hd hpos evs hev hsize hs).drain r.ring
  · -- an area that is left out has nothing deferred
    have he : r.enqueue = false := by
      rw [← Bool.not_eq_true]
      intro he
      obtain ⟨hp, ha⟩ := h.sound.deferring he
      apply hs
      simp only [Receiver.scheduled, h.attached he, ha, hp, h.sound.awake, Bool.or_self,
        Bool.not_false, Bool.and_self]
    have hring := h.empty he
    have heq : r.internalSync d evs = r := by
      rw [Receiver.internalSync, Receiver.syncJob, if_neg hs, Receiver.drain, hring, List.foldl_nil,
        ← hring]
    rw [heq]
    exact h

/-- A sync does not take the view back behind a version of which lines are needed. -/
theorem FeedInv.sync_version (h : FeedInv d pub need lines img v r net) (hb : r.booting = false)
    (evs : List SyncEvent) (hev : Completes d evs) (hsize : SmallChunks evs) {w : ℕ}
    (hw : w ≤ r.mem.ro (d.h+offVersion)) (hne : (need w).Nonempty) :
    w ≤ (r.internalSync d evs).mem.ro (d.h+offVersion) := by
  rw [internalSync_ro hd h.sound hb evs hev hsize _ (AreaDesc.Tracked.has hd hpos (Or.inr rfl))]
  split_ifs with hs
  · have hle := hw.trans h.version.2
    rw [(h.complete hs.2.2 hle hne).1]
    exact hle
  · exact hw

end

end Tasvir
