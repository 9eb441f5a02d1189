import Mathlib.Tactic
import Tasvir.SyncList
import Tasvir.WriteLog

/-! `tasvir_sync_parse_log`: walk a log eight units at a time, merge older diff
logs into it, clear it, and hand its runs of set bits to the sync list. -/
namespace Tasvir
open BitStream RunLength

/-- `_tzcnt_u32`. -/
def tzcntAux : ℕ → ℕ → ℕ
  | 0, _ => 0
  | n+1, x => if x%2 = 1 then 0 else 1+tzcntAux n (x/2)

def tzcnt32 (x : ℕ) : ℕ := tzcntAux 32 x

/-- `_mm512_load_si512` of eight log units. -/
def load8 (log : Words) (li : ℕ) : Words := fun i => log (li+i)

/-- `_mm512_store_epi64` of eight log units. -/
def store8 (log : Words) (li : ℕ) (v : Words) : Words :=
  fun u => if li ≤ u ∧ u < li+8 then v (u-li) else log u

def testMaskAux (v : Words) : ℕ → ℕ
  | 0 => 0
  | n+1 => testMaskAux v n ||| if v n = 0#64 then 0 else 2^n

/-- `_mm512_test_epi64_mask(v, v)`: bit `i` tells whether unit `i` is non-zero. -/
def testMask (v : Words) : ℕ := testMaskAux v 8

/-- Write a run behind the list and keep it only if it is not empty. -/
def pushItem (c : SyncCtx) (offsetScaled lbits1 : ℕ) : SyncCtx :=
  { c with sl := { c.sl with
      maxIdx := max c.sl.maxIdx c.sl.l.length
      l := if lbits1 = 0 then c.sl.l else c.sl.l ++ [⟨offsetScaled, lbits1%2^32⟩] } }

/-- The scanner of the parser: `start` is `offset_scaled`, `ones` and `zeros`
are `lbits[1]` and `lbits[0]`, `total` is `lbits1_total`. -/
abbrev LogScan := Scan SyncCtx

/-- The `do … while (lbits_unit_left > 0)` loop over one log unit, with fuel
for one pass per bit. -/
def parseUnitLoop : ℕ → LogScan → ℕ → Word → Bool → LogScan
  | 0, s, _, _, _ => s
  | fuel+1, s, lbitsUnitLeft, w, isLeadingBitSet =>
    let s := if isLeadingBitSet ∧ s.zeros ≠ 0 then s.cut pushItem else s
    let lbitsSame := min lbitsUnitLeft (if isLeadingBitSet then ~~~w else w).clz.toNat
    let s := if isLeadingBitSet then { s with ones := s.ones+lbitsSame }
      else { s with zeros := s.zeros+lbitsSame }
    if lbitsUnitLeft-lbitsSame > 0 then
      parseUnitLoop fuel s (lbitsUnitLeft-lbitsSame) (w <<< lbitsSame) (!isLeadingBitSet)
    else s

def parseUnit (s : LogScan) (w : Word) : LogScan := parseUnitLoop 64 s 64 w w.msb

/-- The loop over eight units: `zcnt` zero units are skipped at once, with a
sentinel behind the last one. -/
def parseUnits (v : Words) : ℕ → LogScan → ℕ → LogScan
  | 0, s, _ => s
  | fuel+1, s, i =>
    if i < 8 then
      let zcnt := tzcnt32 ((testMask v ||| 2^8) >>> i)
      if zcnt ≠ 0 then parseUnits v fuel { s with zeros := s.zeros+zcnt*64 } (i+zcnt)
      else parseUnits v fuel (parseUnit s (v i)) (i+1)
    else s

/-- The logs one call works on: `log` is the one parsed and cleared, indexed
from the start of the area, `diff p` is `diff_log[p].data`. -/
structure ParseState where
  scan : LogScan
  log : Words
  diff : ℕ → Words

/-- The call's fixed data: `logInternal` is the index of the diff log that
receives the parsed bits, `none` for an area that is not local. -/
structure ParseEnv where
  d : AreaDesc
  pivot : ℕ
  logInternal : Option ℕ

/-- `pivot != 0`. -/
def ParseEnv.external (e : ParseEnv) : Bool := e.pivot != 0

/-- OR `diff_log[p]` into the eight units; the first merge also updates the
internal log. -/
def mergeLog (e : ParseEnv) (li : ℕ) (vd : Words × (ℕ → Words)) (p : ℕ) : Words × (ℕ → Words) :=
  let v : Words := fun i => vd.1 i ||| load8 (vd.2 p) li i
  match e.logInternal with
  | some k => (v, if p = 1 then Function.update vd.2 k (store8 (vd.2 k) li v) else vd.2)
  | none => (v, vd.2)

/-- One pass of the loop over `li`. -/
def parseGroup (e : ParseEnv) (li : ℕ) (p : ParseState) : ParseState :=
  let vd := (List.range' 1 (e.pivot-1)).foldl (mergeLog e li) (load8 p.log li, p.diff)
  let v := vd.1
  let p := { p with diff := vd.2 }
  if testMask v = 0 then { p with scan := { p.scan with zeros := p.scan.zeros+8*64 } }
  else
    let diff := match e.logInternal with
      | some k => if e.pivot < 2 then
          Function.update p.diff k (store8 (p.diff k) li fun i => v i ||| load8 (p.diff k) li i)
        else p.diff
      | none => p.diff
    let log := store8 p.log li fun _ => 0#64
    let s := parseUnits v 8 p.scan 0
    let s := if s.acc.sl.l.length ≥ 256 then
        { s with acc := (syncProcessChanges e.d false e.external s.acc).1 } else s
    { scan := s, log := log, diff := diff }

def parseGroups (e : ParseEnv) : ℕ → ℕ → ParseState → ParseState
  | 0, _, p => p
  | n+1, li, p => parseGroups e n (li+8) (parseGroup e li p)

/-- `sizeof(tasvir_area_desc)` rounded up to lines. -/
def rootDescLines : ℕ := 2

/-- What precedes the loop: an external sync of the root area starts with the
root descriptor, which lies at the start of the data region. -/
def parseInit (e : ParseEnv) (offset : ℕ) (c : SyncCtx) : LogScan :=
  { acc := if e.external ∧ e.d.isRoot then pushItem c 0 rootDescLines else c
    start := (e.d.h+offset)/64, ones := 0, zeros := 0, total := 0 }

/-- The copy for the last batch of ones. -/
def lastBatch (s : LogScan) : LogScan :=
  if s.ones ≠ 0 then
    { s with acc := pushItem s.acc s.start s.ones, total := s.total+s.ones }
  else s

/-- `tasvir_sync_parse_log` up to the hand-over of versions, which its caller
makes when the returned byte count is not zero. -/
def syncParseLog (e : ParseEnv) (offset len : ℕ) (c : SyncCtx) (log : Words) (diff : ℕ → Words) :
    ParseState × ℕ :=
  let p := parseGroups e ((len/4096+7)/8) (offset/4096) ⟨parseInit e offset c, log, diff⟩
  let s := lastBatch p.scan
  let s := if e.external ∧ s.total ≠ 0 then
      { s with acc := (syncProcessChanges e.d true e.external s.acc).1 } else s
  ({ p with scan := s }, s.total*64)

end Tasvir
