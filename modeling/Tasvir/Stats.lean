import Mathlib.Data.BitVec
import Mathlib.Tactic
import Tasvir.Machine
import Tasvir.WriteLog

/-! The statistics of a node. `stats_cur` counts since the last fold, `tasvir_stats_update` adds
it to `stats` and clears it, and `tasvir_stats_reset` clears both. The daemon alone counts; the
calls that count are cut at their increments, so that folds and resets come between any two of
them. A ledger lists the increments since the last reset. -/
namespace Tasvir
open Machine

/-- `tasvir_stats`; the counters are `uint64_t`. -/
structure TasvirStats where
  isyncSuccess : Word := 0
  isyncFailure : Word := 0
  isyncBarrierUs : Word := 0
  isyncUs : Word := 0
  isyncChangedBytes : Word := 0
  isyncProcessedBytes : Word := 0
  esyncCnt : Word := 0
  esyncUs : Word := 0
  esyncChangedBytes : Word := 0
  esyncProcessedBytes : Word := 0
  rxBytes : Word := 0
  txBytes : Word := 0
  rxPkts : Word := 0
  txPkts : Word := 0
deriving DecidableEq, Repr

inductive Counter
  | isyncSuccess
  | isyncFailure
  | isyncBarrierUs
  | isyncUs
  | isyncChangedBytes
  | isyncProcessedBytes
  | esyncCnt
  | esyncUs
  | esyncChangedBytes
  | esyncProcessedBytes
  | rxBytes
  | txBytes
  | rxPkts
  | txPkts
deriving DecidableEq, Repr

namespace TasvirStats

def get (t : TasvirStats) : Counter → Word
  | .isyncSuccess => t.isyncSuccess
  | .isyncFailure => t.isyncFailure
  | .isyncBarrierUs => t.isyncBarrierUs
  | .isyncUs => t.isyncUs
  | .isyncChangedBytes => t.isyncChangedBytes
  | .isyncProcessedBytes => t.isyncProcessedBytes
  | .esyncCnt => t.esyncCnt
  | .esyncUs => t.esyncUs
  | .esyncChangedBytes => t.esyncChangedBytes
  | .esyncProcessedBytes => t.esyncProcessedBytes
  | .rxBytes => t.rxBytes
  | .txBytes => t.txBytes
  | .rxPkts => t.rxPkts
  | .txPkts => t.txPkts

/-- `t.c += v`. -/
def add (t : TasvirStats) (c : Counter) (v : Word) : TasvirStats :=
  match c with
  | .isyncSuccess => { t with isyncSuccess := t.isyncSuccess+v }
  | .isyncFailure => { t with isyncFailure := t.isyncFailure+v }
  | .isyncBarrierUs => { t with isyncBarrierUs := t.isyncBarrierUs+v }
  | .isyncUs => { t with isyncUs := t.isyncUs+v }
  | .isyncChangedBytes => { t with isyncChangedBytes := t.isyncChangedBytes+v }
  | .isyncProcessedBytes => { t with isyncProcessedBytes := t.isyncProcessedBytes+v }
  | .esyncCnt => { t with esyncCnt := t.esyncCnt+v }
  | .esyncUs => { t with esyncUs := t.esyncUs+v }
  | .esyncChangedBytes => { t with esyncChangedBytes := t.esyncChangedBytes+v }
  | .esyncProcessedBytes => { t with esyncProcessedBytes := t.esyncProcessedBytes+v }
  | .rxBytes => { t with rxBytes := t.rxBytes+v }
  | .txBytes => { t with txBytes := t.txBytes+v }
  | .rxPkts => { t with rxPkts := t.rxPkts+v }
  | .txPkts => { t with txPkts := t.txPkts+v }

/-- The fourteen additions of `tasvir_stats_update`. -/
def fold (avg cur : TasvirStats) : TasvirStats where
  isyncSuccess := avg.isyncSuccess+cur.isyncSuccess
  isyncFailure := avg.isyncFailure+cur.isyncFailure
  isyncBarrierUs := avg.isyncBarrierUs+cur.isyncBarrierUs
  isyncUs := avg.isyncUs+cur.isyncUs
  isyncChangedBytes := avg.isyncChangedBytes+cur.isyncChangedBytes
  isyncProcessedBytes := avg.isyncProcessedBytes+cur.isyncProcessedBytes
  esyncCnt := avg.esyncCnt+cur.esyncCnt
  esyncUs := avg.esyncUs+cur.esyncUs
  esyncChangedBytes := avg.esyncChangedBytes+cur.esyncChangedBytes
  esyncProcessedBytes := avg.esyncProcessedBytes+cur.esyncProcessedBytes
  rxBytes := avg.rxBytes+cur.rxBytes
  rxPkts := avg.rxPkts+cur.rxPkts
  -- the source adds the received bytes and packets to the sent ones
  txBytes := avg.txBytes+cur.rxBytes
  txPkts := avg.txPkts+cur.rxPkts

end TasvirStats

/-- The counter of `stats_cur` that `tasvir_stats_update` adds to a counter of `stats`. -/
def Counter.foldedFrom : Counter → Counter
  | .txBytes => .rxBytes
  | .txPkts => .rxPkts
  | c => c

/-- What the statistics use of `tasvir_local_ndata`, and the ledger. -/
structure StatNode where
  timeUs : Word
  lastStat : Word
  lastSyncIntStart : Word
  lastSyncIntEnd : Word
  lastSyncExtStart : Word
  lastSyncExtEnd : Word
  statResetReq : Bool
  statUpdateReq : Bool
  statsCur : TasvirStats
  stats : TasvirStats
  /-- the local `time_us` of the daemon's `tasvir_sync_internal` -/
  barrierUs : Word
  /-- every increment since the last reset -/
  ledger : List (Counter × Word)

/-- The total of the increments of one counter, in 64 bits as the counters themselves. -/
def ledgerTotal (l : List (Counter × Word)) (c : Counter) : Word :=
  ((l.filter fun e => e.1 = c).map Prod.snd).sum

namespace StatNode

/-- `stats_cur.c += v`. -/
def count (s : StatNode) (c : Counter) (v : Word) : StatNode :=
  { s with statsCur := s.statsCur.add c v, ledger := s.ledger ++ [(c, v)] }

/-- The start of `tasvir_sync_internal`. -/
def syncInternalStart (s : StatNode) (now : Word) : StatNode := { s with lastSyncIntStart := now }

/-- The barrier of `tasvir_sync_internal` fails. -/
def syncInternalFail (s : StatNode) (now : Word) : StatNode :=
  let s := { s with lastSyncIntEnd := now }
  ((s.count .isyncFailure 1).count .isyncBarrierUs (s.lastSyncIntEnd-s.lastSyncIntStart)).count
    .isyncUs (s.lastSyncIntEnd-s.lastSyncIntStart)

/-- The barrier of `tasvir_sync_internal` succeeds. -/
def syncInternalBarrier (s : StatNode) (now : Word) : StatNode :=
  { s.count .isyncBarrierUs (now-s.lastSyncIntStart) with barrierUs := now }

/-- The loop over the jobs of `bytes_updated` and `bytes_seen`. -/
def countJobs (s : StatNode) (jobs : List (Word × Word)) : StatNode :=
  jobs.foldl (fun s j => (s.count .isyncChangedBytes j.1).count .isyncProcessedBytes j.2) s

/-- The end of `tasvir_sync_internal`. -/
def syncInternalEnd (s : StatNode) (now : Word) (jobs : List (Word × Word)) : StatNode :=
  let s := { s with timeUs := now, lastSyncIntEnd := now }
  ((s.count .isyncSuccess 1).count .isyncUs (now-s.barrierUs)).countJobs jobs

/-- The start of `tasvir_sync_external`. -/
def syncExternalStart (s : StatNode) : StatNode := { s with lastSyncExtStart := s.timeUs }

/-- `tasvir_sync_external_area` after it has parsed the logs. -/
def syncExternalArea (s : StatNode) (bytesChanged offsetLogEnd : Word) : StatNode :=
  let s := if bytesChanged ≠ 0 then s.count .esyncChangedBytes bytesChanged else s
  s.count .esyncProcessedBytes offsetLogEnd

/-- The end of `tasvir_sync_external`. -/
def syncExternalEnd (s : StatNode) (now : Word) : StatNode :=
  let s := { s with timeUs := now, lastSyncExtEnd := now }
  (s.count .esyncCnt 1).count .esyncUs (s.lastSyncExtEnd-s.lastSyncExtStart)

/-- `tasvir_service_port_rx` for one packet; TASVIR_ETH_PROTO is 0x88b6. -/
def servicePortRx (s : StatNode) (etherType : BitVec 16) (pktLen : BitVec 32) : StatNode :=
  if etherType = 0x88b6 then
    (s.count .rxBytes (pktLen.setWidth 64)).count .rxPkts 1
  else s

/-- `tasvir_populate_msg_nethdr`. -/
def populateMsgNethdr (s : StatNode) (pktLen : BitVec 32) : StatNode :=
  (s.count .txBytes (pktLen.setWidth 64)).count .txPkts 1

def tasvirStatsReset (s : StatNode) : StatNode :=
  { s with
    stats := {}
    statsCur := {}
    lastStat := s.timeUs
    lastSyncIntStart := s.timeUs
    lastSyncExtStart := s.timeUs
    lastSyncIntEnd := s.timeUs
    lastSyncExtEnd := s.timeUs
    statResetReq := false
    ledger := [] }

def tasvirStatsUpdate (s : StatNode) : StatNode :=
  if s.timeUs-s.lastStat = 0#64 then s
  else { s with
    lastStat := s.timeUs
    stats := s.stats.fold s.statsCur
    statsCur := {}
    statUpdateReq := false }

end StatNode

inductive StatAct
  | syncInternalStart (now : Word)
  | syncInternalFail (now : Word)
  | syncInternalBarrier (now : Word)
  | syncInternalEnd (now : Word) (jobs : List (Word × Word))
  | syncExternalStart
  | syncExternalArea (bytesChanged offsetLogEnd : Word)
  | syncExternalEnd (now : Word)
  | servicePortRx (etherType : BitVec 16) (pktLen : BitVec 32)
  | populateMsgNethdr (pktLen : BitVec 32)
  /-- `tasvir_service` copies the time of its thread -/
  | service (now : Word)
  /-- `tasvir_stats_get` of a thread of the node -/
  | requestUpdate
  /-- `tasvir_stats_reset` of a thread of the node -/
  | requestReset
  | reset
  | update
deriving DecidableEq

def statNext (s : StatNode) : StatAct → StatNode
  | .syncInternalStart now => s.syncInternalStart now
  | .syncInternalFail now => s.syncInternalFail now
  | .syncInternalBarrier now => s.syncInternalBarrier now
  | .syncInternalEnd now jobs => s.syncInternalEnd now jobs
  | .syncExternalStart => s.syncExternalStart
  | .syncExternalArea bytesChanged offsetLogEnd => s.syncExternalArea bytesChanged offsetLogEnd
  | .syncExternalEnd now => s.syncExternalEnd now
  | .servicePortRx etherType pktLen => s.servicePortRx etherType pktLen
  | .populateMsgNethdr pktLen => s.populateMsgNethdr pktLen
  | .service now => { s with timeUs := now }
  | .requestUpdate => { s with statUpdateReq := true }
  | .requestReset => { s with statResetReq := true }
  | .reset => s.tasvirStatsReset
  | .update => s.tasvirStatsUpdate

/-- A daemon starts with cleared node data; every step can come at any time. -/
def statSystem : System StatNode StatAct where
  init s := s.stats = {} ∧ s.statsCur = {} ∧ s.ledger = []
  pre _ _ := True
  next := statNext

/-- The two records add up to the increments of the counter. -/
def StatNode.Tallies (s : StatNode) (c : Counter) : Prop :=
  s.stats.get c+s.statsCur.get c = ledgerTotal s.ledger c

/-- All fourteen counters are conserved. -/
def StatNode.TalliesAll (s : StatNode) : Prop := ∀ c, s.Tallies c

/-- A fold finds as many bytes and packets received as sent. -/
def FoldsAlike (s : StatNode) (a : StatAct) : Prop :=
  a = .update → s.timeUs ≠ s.lastStat →
    s.statsCur.rxBytes = s.statsCur.txBytes ∧ s.statsCur.rxPkts = s.statsCur.txPkts

@[simp] theorem TasvirStats.get_empty (c : Counter) : TasvirStats.get {} c = 0#64 := by
  cases c <;> rfl

theorem TasvirStats.get_add (t : TasvirStats) (c c' : Counter) (v : Word) :
    (t.add c v).get c' = t.get c'+if c = c' then v else 0#64 := by
  by_cases h : c = c'
  · subst h
    rw [if_pos rfl]
    cases c <;> rfl
  · rw [if_neg h, BitVec.add_zero]
    cases c <;> cases c' <;> first | rfl | exact absurd rfl h

theorem TasvirStats.get_fold (avg cur : TasvirStats) (c : Counter) :
    (avg.fold cur).get c = avg.get c+cur.get c.foldedFrom := by
  cases c <;> rfl

theorem ledgerTotal_append (l : List (Counter × Word)) (c c' : Counter) (v : Word) :
    ledgerTotal (l ++ [(c, v)]) c' = ledgerTotal l c'+if c = c' then v else 0#64 := by
  rw [ledgerTotal, List.filter_append, List.map_append, List.sum_append, ledgerTotal]
  congr 1
  by_cases h : c = c' <;> simp [h]

section
variable (s : StatNode) (c : Counter)

/-- An increment reaches the records and the ledger alike. -/
@[simp] theorem tallies_count (c' : Counter) (v : Word) :
    (s.count c' v).Tallies c ↔ s.Tallies c := by
  simp only [StatNode.Tallies, StatNode.count, TasvirStats.get_add, ledgerTotal_append,
    ← BitVec.add_assoc, BitVec.add_left_inj]

theorem tallies_countJobs (jobs : List (Word × Word)) :
    (s.countJobs jobs).Tallies c ↔ s.Tallies c := by
  induction jobs generalizing s with
  | nil => rfl
  | cons j jobs ih =>
    rw [StatNode.countJobs, List.foldl_cons]
    apply (ih _).trans
    rw [tallies_count, tallies_count]

theorem tallies_syncInternalEnd (now : Word) (jobs : List (Word × Word)) :
    (s.syncInternalEnd now jobs).Tallies c ↔ s.Tallies c := by
  rw [StatNode.syncInternalEnd, tallies_countJobs, tallies_count, tallies_count]
  rfl

theorem tallies_syncExternalArea (bytesChanged offsetLogEnd : Word) :
    (s.syncExternalArea bytesChanged offsetLogEnd).Tallies c ↔ s.Tallies c := by
  rw [StatNode.syncExternalArea, tallies_count]
  split_ifs
  · exact tallies_count s c _ _
  · rfl

theorem tallies_servicePortRx (etherType : BitVec 16) (pktLen : BitVec 32) :
    (s.servicePortRx etherType pktLen).Tallies c ↔ s.Tallies c := by
  rw [StatNode.servicePortRx]
  split_ifs
  · rw [tallies_count, tallies_count]
  · rfl

theorem tallies_reset : s.tasvirStatsReset.Tallies c := by
  rw [StatNode.Tallies, StatNode.tasvirStatsReset, TasvirStats.get_empty]
  rfl

/-- A fold keeps a counter iff it adds what the counter itself has counted. -/
theorem tallies_update (h : s.Tallies c) : s.tasvirStatsUpdate.Tallies c ↔
    (s.timeUs ≠ s.lastStat → s.statsCur.get c.foldedFrom = s.statsCur.get c) := by
  rw [StatNode.tasvirStatsUpdate]
  by_cases ht : s.timeUs = s.lastStat
  · rw [if_pos (by rw [ht, BitVec.sub_self])]
    exact iff_of_true h (fun hne => absurd ht hne)
  · rw [if_neg (by bv_omega)]
    have hfold : s.stats.get c+s.statsCur.get c.foldedFrom+0#64 = ledgerTotal s.ledger c ↔
        s.statsCur.get c.foldedFrom = s.statsCur.get c := by
      rw [← show s.stats.get c+s.statsCur.get c = ledgerTotal s.ledger c from h, BitVec.add_zero,
        BitVec.add_right_inj]
    simp only [StatNode.Tallies, TasvirStats.get_fold, TasvirStats.get_empty]
    rw [hfold]
    exact ⟨fun he _ => he, fun he => he ht⟩

/-- Every step but a reset and a fold keeps every counter as it was. -/
theorem tallies_statNext (a : StatAct) (hr : a ≠ .reset) (hu : a ≠ .update) :
    (statNext s a).Tallies c ↔ s.Tallies c := by
  cases a with
  | syncInternalStart now => rfl
  | syncInternalFail now =>
    rw [statNext, StatNode.syncInternalFail, tallies_count, tallies_count, tallies_count]
    rfl
  | syncInternalBarrier now => exact tallies_count s c _ _
  | syncInternalEnd now jobs => exact tallies_syncInternalEnd s c now jobs
  | syncExternalStart => rfl
  | syncExternalArea bytesChanged offsetLogEnd =>
    exact tallies_syncExternalArea s c bytesChanged offsetLogEnd
  | syncExternalEnd now =>
    rw [statNext, StatNode.syncExternalEnd, tallies_count, tallies_count]
    rfl
  | servicePortRx etherType pktLen => exact tallies_servicePortRx s c etherType pktLen
  | populateMsgNethdr pktLen =>
    rw [statNext, StatNode.populateMsgNethdr, tallies_count, tallies_count]
  | service now => rfl
  | requestUpdate => rfl
  | requestReset => rfl
  | reset => exact absurd rfl hr
  | update => exact absurd rfl hu

end

/-- A step from a state that tallies goes wrong exactly at a fold of unlike traffic. -/
theorem talliesAll_statNext {s : StatNode} (h : s.TalliesAll) (a : StatAct) :
    (statNext s a).TalliesAll ↔ FoldsAlike s a := by
  by_cases hr : a = .reset
  · subst hr
    exact iff_of_true (tallies_reset s) (fun hu => by cases hu)
  · by_cases hu : a = .update
    · subst hu
      have hstep (c : Counter) := tallies_update s c (h c)
      constructor
      · intro hn _ ht
        exact ⟨(hstep .txBytes).mp (hn .txBytes) ht, (hstep .txPkts).mp (hn .txPkts) ht⟩
      · intro halike c
        apply (hstep c).mpr
        intro ht
        obtain ⟨hbytes, hpkts⟩ := halike rfl ht
        cases c <;> first | rfl | exact hbytes | exact hpkts
    · have hkeep (c : Counter) := (tallies_statNext s c a hr hu).mpr (h c)
      exact iff_of_true hkeep (fun he => absurd he hu)

theorem tallies_init {s : StatNode} (h : statSystem.init s) (c : Counter) : s.Tallies c := by
  obtain ⟨h1, h2, h3⟩ := h
  rw [StatNode.Tallies, h1, h2, h3, TasvirStats.get_empty]
  rfl

/-- The counters that are folded from themselves. -/
theorem tallies_reachable {s : StatNode} (h : statSystem.Reachable s) {c : Counter}
    (hc : c.foldedFrom = c) : s.Tallies c := by
  induction h with
  | init h => exact tallies_init h c
  | @step s a _ _ ih =>
    change (statNext s a).Tallies c
    by_cases hr : a = .reset
    · subst hr
      exact tallies_reset s c
    · by_cases hu : a = .update
      · subst hu
        apply (tallies_update s c ih).mpr
        intro _
        rw [hc]
      · exact (tallies_statNext s c a hr hu).mpr ih

/-- Twelve counters are conserved in every run. All fourteen are in every run whose folds find
as much traffic received as sent, and any other fold breaks the two counters of sent traffic. -/
theorem stats_conserved {s : StatNode} (h : statSystem.Reachable s) :
    (∀ c, c ≠ .txBytes → c ≠ .txPkts → s.Tallies c) ∧
    ((statSystem.restrict FoldsAlike).Reachable s → s.TalliesAll) ∧
    (s.TalliesAll → ∀ a, (statSystem.next s a).TalliesAll ↔ FoldsAlike s a) := by
  refine ⟨?_, ?_, fun hall a => talliesAll_statNext hall a⟩
  · intro c hbytes hpkts
    apply tallies_reachable h
    cases c <;> first | rfl | exact absurd rfl hbytes | exact absurd rfl hpkts
  · intro hr
    apply hr.invariant
    · exact fun s hs => tallies_init hs
    · intro s a hall hpre
      exact (talliesAll_statNext hall a).mpr hpre.2

/-- The node data of a daemon that starts. -/
def statStart : StatNode where
  timeUs := 0
  lastStat := 0
  lastSyncIntStart := 0
  lastSyncIntEnd := 0
  lastSyncExtStart := 0
  lastSyncExtEnd := 0
  statResetReq := false
  statUpdateReq := false
  statsCur := {}
  stats := {}
  barrierUs := 0
  ledger := []

instance (s : StatNode) (c : Counter) : Decidable (s.Tallies c) :=
  inferInstanceAs (Decidable (_ = _))

instance (s : StatNode) (a : StatAct) : Decidable (FoldsAlike s a) :=
  inferInstanceAs (Decidable (_ → _ → _))

theorem statStart_init : statSystem.init statStart := ⟨rfl, rfl, rfl⟩

/-- A packet received, one of the same length sent, and two folds at the same time. -/
theorem stats_conserved_echo : ∃ s, (statSystem.restrict FoldsAlike).Reachable s ∧
    s.stats.txBytes = 100 ∧ s.TalliesAll := by
  have hrun : (statSystem.restrict FoldsAlike).Reachable
      ((statSystem.restrict FoldsAlike).run statStart [.servicePortRx 0x88b6 100,
        .populateMsgNethdr 100, .service 7, .update, .update]) := by
    have hinit : (statSystem.restrict FoldsAlike).Reachable statStart := .init statStart_init
    apply hinit.run
    exact ⟨⟨trivial, by decide⟩, ⟨trivial, by decide⟩, ⟨trivial, by decide⟩,
      ⟨trivial, by decide⟩, ⟨trivial, by decide⟩, trivial⟩
  exact ⟨_, hrun, by decide, (stats_conserved hrun.of_restrict).2.1 hrun⟩

/-- A packet is sent and the statistics are folded: the packet is not in them. -/
theorem not_stats_conserved : ∃ s, statSystem.Reachable s ∧
    s.ledger = [(.txBytes, 100), (.txPkts, 1)] ∧
    s.stats.txBytes = 0 ∧ s.statsCur.txBytes = 0 ∧ ¬s.Tallies .txBytes ∧ ¬s.Tallies .txPkts := by
  refine ⟨statSystem.run statStart [.populateMsgNethdr 100, .service 7, .update], ?_, by decide,
    by decide, by decide, by decide, by decide⟩
  apply System.Reachable.run (.init statStart_init)
  exact ⟨trivial, trivial, trivial, trivial⟩

end Tasvir
