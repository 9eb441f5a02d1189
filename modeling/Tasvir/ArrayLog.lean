import Mathlib.Tactic
import Tasvir.ByteMem
import Tasvir.LogExact

/-! What the methods of `tasvir::Array` write and what they log. A call keeps two records beside
the memory: the bytes that its own stores have changed, and the bits that its own calls of
`tasvir_log` have set. Addresses are offsets in the data region. -/
namespace Tasvir
open ByteMem Machine

/-- The element type `T`: `sizeof(T)`, the bytes of a `T` made from 0, and `+=` on the bytes. -/
structure ElemType where
  size : ℕ
  zero : List ℕ
  add : List ℕ → List ℕ → List ℕ
  size_pos : 0 < size
  zero_length : zero.length = size
  add_length : ∀ a b, (add a b).length = size

/-- Offset of `_version` in `Array<T>`. -/
def offArrayVersion : ℕ := 24

/-- Offset of `_version_done`. -/
def offVersionDone : ℕ := 32

/-- Offset of `_data`, the first multiple of 64 behind the 1024 workers. -/
def offArrayData : ℕ := 8320

/-- The bytes from the start of an `Array<T>` to the end of its elements. -/
def ElemType.extent (E : ElemType) (size : ℕ) : ℕ := offArrayData+E.size*size

/-- An object as `Allocate` leaves it. Objects start the payload of an area, and those of the
parent and of the worker have room for all elements. -/
structure ArrayHandle (E : ElemType) where
  size : ℕ
  nrWorkers : ℕ
  wid : ℕ
  self : ℕ
  parent : ℕ
  workers : ℕ → ℕ
  self_payload : 32768 ∣ self-sizeofHeader ∧ sizeofHeader ≤ self
  parent_payload : 32768 ∣ parent-sizeofHeader ∧ sizeofHeader ≤ parent
  self_inside : self+E.extent size ≤ 2^40
  parent_inside : parent+E.extent size ≤ 2^40
  apart : self = parent ∨ self+E.extent size ≤ parent ∨ parent+E.extent size ≤ self

/-- A map of index ranges; `std::copy` takes valid ranges only. -/
structure Selection (size : ℕ) where
  ranges : List (ℕ × ℕ)
  valid : ∀ c ∈ ranges, c.1 ≤ c.2 ∧ c.2 ≤ size

/-- A call under way. -/
structure MethodRun where
  mem : Bytes
  /-- the bytes that a store of the method has changed -/
  changed : ℕ → Bool
  /-- the bits that a `tasvir_log` of the method has set -/
  marks : Words

namespace MethodRun

def start (m : Bytes) : MethodRun := ⟨m, fun _ => false, fun _ => 0#64⟩

def store (s : MethodRun) (a : ℕ) (bs : List ℕ) : MethodRun :=
  { s with
    mem := ByteMem.store s.mem a bs
    changed := fun x => s.changed x || decide (ByteMem.store s.mem a bs x ≠ s.mem x) }

def log (s : MethodRun) (a len : ℕ) : MethodRun :=
  { s with marks := tasvirLog s.marks (addrData+a) len }

/-- `tasvir_service_wait` and `tasvir_service`: the memory is what others have made of it. -/
def wait (s : MethodRun) (m : Bytes) : MethodRun := { s with mem := m }

/-- `while (cond) tasvir_service_wait(..)`, with the memories that the waits come back to. The
second result is what is left of them, `none` when the call is still waiting. -/
def waitWhile (cond : Bytes → Bool) (s : MethodRun) : List Bytes → MethodRun × Option (List Bytes)
  | [] => (s, if cond s.mem then none else some [])
  | m :: env => if cond s.mem then waitWhile cond (s.wait m) env else (s, some (m :: env))

/-- Each changed byte is in a line that the method has marked. -/
def Logged (s : MethodRun) : Prop := ∀ x, s.changed x = true → lineBit s.marks (x/64) = true

end MethodRun

namespace ArrayHandle
variable {E : ElemType} (o : ArrayHandle E)

/-- `&_data[i]` of the object at `a`. -/
def elem (_ : ArrayHandle E) (a i : ℕ) : ℕ := a+offArrayData+E.size*i

/-- `std::fill(_parent->_data, _parent->_data + _size, 0)`. -/
def fill (s : MethodRun) : MethodRun :=
  (List.range o.size).foldl (fun s i => s.store (o.elem o.parent i) E.zero) s

/-- `_parent->_data[i] += _workers[w]->_data[i]`. -/
def addElem (w : ℕ) (s : MethodRun) (i : ℕ) : MethodRun :=
  s.store (o.elem o.parent i) (E.add (bytes s.mem (o.elem o.parent i) E.size)
    (bytes s.mem (o.elem (o.workers w) i) E.size))

/-- The two loops; `i` is an `int`. -/
def addWorkers (s : MethodRun) : MethodRun :=
  (List.range o.nrWorkers).foldl
    (fun s w => (List.range (min o.size (2^31))).foldl (o.addElem w) s) s

def reduceAdd (s : MethodRun) : MethodRun :=
  if o.wid ≠ 0 then s
  else o.addWorkers (o.fill (s.log (o.elem o.parent 0) (8*o.size%2^64)))

/-- `std::copy` of each range of the map, from the object at `src` to the one at `dst`. -/
def copyRanges (src dst : ℕ) (map : Selection o.size) (s : MethodRun) : MethodRun :=
  map.ranges.foldl (fun s c => s.store (o.elem dst c.1)
    (bytes s.mem (o.elem src c.1) (E.size*(c.2-c.1)))) s

def reduceSelect (map : Selection o.size) (s : MethodRun) : MethodRun :=
  o.copyRanges o.self o.parent map s

def copySelect (map : Selection o.size) (s : MethodRun) : MethodRun :=
  o.copyRanges o.parent o.self map s

/-- Worker 0 waits for the workers one after the other. -/
def waitWorkers (s : MethodRun) (env : List Bytes) : List ℕ → MethodRun × Option (List Bytes)
  | [] => (s, some env)
  | w :: ws =>
    match s.waitWhile (fun m => load m (o.workers w+offVersionDone) 8 ≠
        load m (o.parent+offArrayVersion) 8) env with
    | (s, none) => (s, none)
    | (s, some env) => waitWorkers s env ws

/-- `_parent->_version_done = _parent->_version; _parent->_version++` and both logs. -/
def advance (s : MethodRun) : MethodRun :=
  let s := s.store (o.parent+offVersionDone) (encode 8 (load s.mem (o.parent+offArrayVersion) 8))
  let s := s.store (o.parent+offArrayVersion)
    (encode 8 (load s.mem (o.parent+offArrayVersion) 8+1))
  (s.log (o.parent+offVersionDone) 8).log (o.parent+offArrayVersion) 8

/-- The branch of worker 0. -/
def collectWorkers (s : MethodRun) (env : List Bytes) : MethodRun × Option (List Bytes) :=
  if o.wid = 0 then
    match o.waitWorkers s env (List.range o.nrWorkers) with
    | (s, none) => (s, none)
    | (s, some env) => (o.advance s, some env)
  else (s, some env)

/-- `Barrier`, up to its end or to the wait that has not come back. -/
def barrier (env : List Bytes) (s : MethodRun) : MethodRun :=
  -- each store is logged only after it is made
  let s := s.store (o.self+offVersionDone) (encode 8 (load s.mem (o.self+offArrayVersion) 8))
  let s := s.log (o.self+offVersionDone) 8
  -- `env` has what the others write meanwhile, and may end before the call returns
  match env with
  | [] => s
  | m :: env =>
    match o.collectWorkers (s.wait m) env with
    | (s, none) => s
    | (s, some env) =>
      match s.waitWhile (fun m => load m (o.self+offVersionDone) 8 =
          load m (o.parent+offArrayVersion) 8) env with
      | (s, none) => s
      | (s, some _) =>
        (s.store (o.self+offArrayVersion)
          (encode 8 (load s.mem (o.parent+offArrayVersion) 8))).log (o.self+offArrayVersion) 8

end ArrayHandle

/-- A method call on an array of `size` elements. -/
inductive ArrayCall (size : ℕ)
  | reduceAdd
  | reduceSelect (map : Selection size)
  | copySelect (map : Selection size)
  | barrier (env : List Bytes)

def ArrayCall.run {E : ElemType} (o : ArrayHandle E) : ArrayCall o.size → Bytes → MethodRun
  | .reduceAdd, m => o.reduceAdd (.start m)
  | .reduceSelect map, m => o.reduceSelect map (.start m)
  | .copySelect map, m => o.copySelect map (.start m)
  | .barrier env, m => o.barrier env (.start m)

/-! The loops are sequences of stores into one range. -/

namespace MethodRun

/-- The second run is the first one after stores inside of a range. -/
inductive Stores (lo hi : ℕ) (s : MethodRun) : MethodRun → Prop
  | refl : Stores lo hi s s
  | tail {t : MethodRun} (a : ℕ) (bs : List ℕ) : Stores lo hi s t → lo ≤ a → a+bs.length ≤ hi →
    Stores lo hi s (t.store a bs)

variable {s t : MethodRun} {lo hi : ℕ}

theorem changed_store {a x : ℕ} {bs : List ℕ} (h : (s.store a bs).changed x = true) :
    s.changed x = true ∨ a ≤ x ∧ x < a+bs.length := by
  by_cases hx : a ≤ x ∧ x < a+bs.length
  · exact Or.inr hx
  · left
    have hsame : ByteMem.store s.mem a bs x = s.mem x := if_neg hx
    simpa [store, hsame] using h

theorem store_mem (s : MethodRun) (a : ℕ) (bs : List ℕ) (x : ℕ) : (s.store a bs).mem x =
    if a ≤ x ∧ x < a+bs.length then bs.getD (x-a) 0 else s.mem x := rfl

/-- A store of what is there already. -/
theorem store_same {a : ℕ} {bs : List ℕ} (h : ByteMem.store s.mem a bs = s.mem) :
    s.store a bs = s := by
  simp [store, h]

theorem Stores.marks (h : Stores lo hi s t) : t.marks = s.marks := by
  induction h with
  | refl => rfl
  | tail a bs _ _ _ ih => exact ih

theorem Stores.outside (h : Stores lo hi s t) {x : ℕ} (hx : x < lo ∨ hi ≤ x) :
    t.mem x = s.mem x := by
  induction h with
  | refl => rfl
  | tail a bs _ hlo hhi ih =>
    rw [← ih]
    exact if_neg (by omega)

/-- A byte that is not as before has been changed by a store. -/
theorem Stores.changed (h : Stores lo hi s t) {x : ℕ} (hx : t.mem x ≠ s.mem x) :
    t.changed x = true := by
  induction h with
  | refl => exact absurd rfl hx
  | @tail t a bs _ _ _ ih =>
    by_cases hsame : ByteMem.store t.mem a bs x = t.mem x
    · have hold : t.changed x = true := by
        apply ih
        rw [← hsame]
        exact hx
      simp [store, hold]
    · simp [store, hsame]

/-- Stores into lines that are marked already. -/
theorem Stores.logged (h : Stores lo hi s t) (hs : s.Logged)
    (hcov : ∀ x, lo ≤ x → x < hi → lineBit s.marks (x/64) = true) : t.Logged := by
  induction h with
  | refl => exact hs
  | @tail t a bs ht hlo hhi ih =>
    intro x hx
    rcases changed_store hx with hold | ⟨h1, h2⟩
    · exact ih x hold
    · change lineBit t.marks (x/64) = true
      rw [ht.marks]
      exact hcov x (by omega) (by omega)

theorem lineBit_log {a len : ℕ} (hlen : 1 ≤ len) (hend : a+len ≤ 2^40) (l : ℕ) :
    lineBit (s.log a len).marks l = true ↔ lineBit s.marks l = true ∨ Meets a len l :=
  lineBit_tasvirLog_addr .base s.marks hlen hend l

/-- A store and the log of the same bytes. -/
theorem Logged.store_log (h : s.Logged) {a : ℕ} {bs : List ℕ} (hlen : bs.length = 8)
    (ha : a+8 ≤ 2^40) : ((s.store a bs).log a 8).Logged := by
  intro x hx
  apply (lineBit_log (by norm_num) ha (x/64)).mpr
  rcases changed_store hx with hold | ⟨h1, h2⟩
  · exact Or.inl (h x hold)
  · exact Or.inr ⟨x, h1, by omega, rfl⟩

theorem Logged.wait (h : s.Logged) (m : Bytes) : (s.wait m).Logged := h

theorem waitWhile_frame (cond : Bytes → Bool) (env : List Bytes) :
    (s.waitWhile cond env).1.changed = s.changed ∧ (s.waitWhile cond env).1.marks = s.marks := by
  induction env generalizing s with
  | nil => exact ⟨rfl, rfl⟩
  | cons m env ih =>
    rw [waitWhile]
    split_ifs
    · exact ih
    · exact ⟨rfl, rfl⟩

/-- Waiting changes nothing that is logged or to be logged. -/
theorem Logged.waitWhile (h : s.Logged) (cond : Bytes → Bool) (env : List Bytes) :
    (s.waitWhile cond env).1.Logged := by
  obtain ⟨hchanged, hmarks⟩ := waitWhile_frame (s := s) cond env
  intro x hx
  rw [hmarks]
  apply h x
  rwa [hchanged] at hx

end MethodRun

namespace ArrayHandle
variable {E : ElemType} (o : ArrayHandle E) {s : MethodRun}

theorem waitWorkers_logged (h : s.Logged) (env : List Bytes) (ws : List ℕ) :
    (o.waitWorkers s env ws).1.Logged := by
  induction ws generalizing s env with
  | nil => exact h
  | cons w ws ih =>
    have hw := h.waitWhile (fun m => load m (o.workers w+offVersionDone) 8 ≠
      load m (o.parent+offArrayVersion) 8) env
    rw [waitWorkers]
    split
    · rename_i s' heq
      rw [heq] at hw
      exact hw
    · rename_i s' env' heq
      rw [heq] at hw
      exact ih hw env'

theorem advance_logged (h : s.Logged) : (o.advance s).Logged := by
  have hin := o.parent_inside
  rw [ElemType.extent, offArrayData] at hin
  intro x hx
  have h1 : o.parent+offVersionDone+8 ≤ 2^40 := by rw [offVersionDone]; omega
  have h2 : o.parent+offArrayVersion+8 ≤ 2^40 := by rw [offArrayVersion]; omega
  apply (MethodRun.lineBit_log (by norm_num) h2 _).mpr
  rw [MethodRun.lineBit_log (by norm_num) h1]
  rcases MethodRun.changed_store hx with hx | ⟨hlo, hhi⟩
  · rcases MethodRun.changed_store hx with hx | ⟨hlo, hhi⟩
    · exact Or.inl (Or.inl (h x hx))
    · rw [length_encode] at hhi
      exact Or.inl (Or.inr ⟨x, hlo, by omega, rfl⟩)
  · rw [length_encode] at hhi
    exact Or.inr ⟨x, hlo, by omega, rfl⟩

theorem collectWorkers_logged (h : s.Logged) (env : List Bytes) :
    (o.collectWorkers s env).1.Logged := by
  have hw := o.waitWorkers_logged h env (List.range o.nrWorkers)
  rw [collectWorkers]
  split_ifs
  · split
    · rename_i s' heq
      rw [heq] at hw
      exact hw
    · rename_i s' env' heq
      rw [heq] at hw
      exact o.advance_logged hw
  · exact h

/-- `Barrier` logs all it writes, wherever it stops. -/
theorem barrier_logged (h : s.Logged) (env : List Bytes) : (o.barrier env s).Logged := by
  have hin := o.self_inside
  rw [ElemType.extent, offArrayData] at hin
  have hfirst := h.store_log (a := o.self+offVersionDone)
    (length_encode 8 (load s.mem (o.self+offArrayVersion) 8)) (by rw [offVersionDone]; omega)
  cases env with
  | nil => exact hfirst
  | cons m env =>
    have hcollect := o.collectWorkers_logged (hfirst.wait m) env
    rw [barrier]
    split
    · rename_i s' heq
      rw [heq] at hcollect
      exact hcollect
    · rename_i s' env' heq
      rw [heq] at hcollect
      have hwait := MethodRun.Logged.waitWhile hcollect (fun m =>
        load m (o.self+offVersionDone) 8 = load m (o.parent+offArrayVersion) 8) env'
      split
      · rename_i t heq'
        rw [heq'] at hwait
        exact hwait
      · rename_i t rest heq'
        rw [heq'] at hwait
        exact hwait.store_log (length_encode 8 _) (by rw [offArrayVersion]; omega)

/-! `ReduceAdd` stores to all elements of the parent and logs eight bytes for each of them. -/

theorem elem_le {i : ℕ} (hi : i < o.size) (a : ℕ) :
    o.elem a 0 ≤ o.elem a i ∧ o.elem a i+E.size ≤ o.elem a 0+E.size*o.size := by
  have hmul : E.size*(i+1) ≤ E.size*o.size := Nat.mul_le_mul_left _ hi
  rw [mul_add, mul_one] at hmul
  simp only [elem, mul_zero]
  omega

/-- The offset behind the last element of the parent. -/
theorem elem_end_le : o.elem o.parent 0+E.size*o.size ≤ 2^40 := by
  have hin := o.parent_inside
  simp only [ElemType.extent, elem, mul_zero] at hin ⊢
  omega

theorem fill_stores (s : MethodRun) :
    s.Stores (o.elem o.parent 0) (o.elem o.parent 0+E.size*o.size) (o.fill s) := by
  apply List.foldlRecOn
  · exact .refl
  · intro t ht i hi
    obtain ⟨h1, h2⟩ := o.elem_le (List.mem_range.mp hi) o.parent
    exact ht.tail _ _ h1 (by rwa [E.zero_length])

theorem addWorkers_stores {s t : MethodRun}
    (h : s.Stores (o.elem o.parent 0) (o.elem o.parent 0+E.size*o.size) t) :
    s.Stores (o.elem o.parent 0) (o.elem o.parent 0+E.size*o.size) (o.addWorkers t) := by
  apply List.foldlRecOn _ _ h
  intro t ht w _
  apply List.foldlRecOn _ _ ht
  intro t ht i hi
  rw [List.mem_range, lt_min_iff] at hi
  obtain ⟨h1, h2⟩ := o.elem_le hi.1 o.parent
  exact ht.tail _ _ h1 (by rwa [E.add_length])

/-- All the stores of `ReduceAdd`, behind its log. -/
theorem reduceAdd_stores (hw : o.wid = 0) (s : MethodRun) :
    (s.log (o.elem o.parent 0) (8*o.size%2^64)).Stores (o.elem o.parent 0)
      (o.elem o.parent 0+E.size*o.size) (o.reduceAdd s) := by
  rw [reduceAdd, if_neg (not_not.mpr hw)]
  exact o.addWorkers_stores (o.fill_stores _)

/-- The last line of the elements is logged. Eight bytes for each element may go beyond the
region, which the log reads as starting over. -/
def CoversData : Prop :=
  let first := o.elem o.parent 0
  let last := (first+8*o.size-1)%2^40
  (first+E.size*o.size-1)/64 ≤ last/64 ∨ last/4096 < first/4096

theorem size_le : o.size ≤ E.size*o.size := Nat.le_mul_of_pos_left _ E.size_pos

theorem lastLine_data (h0 : 0 < o.size) :
    lastLine (addrData+o.elem o.parent 0) (8*o.size%2^64) =
      if (o.elem o.parent 0+8*o.size-1)%2^40/4096 < o.elem o.parent 0/4096 then
        (o.elem o.parent 0+8*o.size-1)%2^40/64+2^70
      else (o.elem o.parent 0+8*o.size-1)%2^40/64 := by
  have hend := o.elem_end_le
  have hsize := o.size_le
  generalize o.elem o.parent 0 = p at hend ⊢
  generalize E.size*o.size = n at hend hsize
  have hadd : addrData = 2^40 := rfl
  have hlast : (addrData+p+8*o.size%2^64+(2^64-1))%2^64%2^40 = (p+8*o.size-1)%2^40 := by omega
  have hfirst : (addrData+p)%2^40 = p := by omega
  simp only [lastLine, hlast, hfirst, Nat.div_div_eq_div_mul, show 64*64 = 4096 from rfl]

/-- The lines of the elements are marked iff the last one is. -/
theorem coversData_iff (h0 : 0 < o.size) (m : Bytes) : o.CoversData ↔
    ∀ x, o.elem o.parent 0 ≤ x → x < o.elem o.parent 0+E.size*o.size →
      lineBit ((MethodRun.start m).log (o.elem o.parent 0) (8*o.size%2^64)).marks (x/64)
        = true := by
  have hend := o.elem_end_le
  have hsize := o.size_le
  have hlast := o.lastLine_data h0
  have hbits (l : ℕ) : lineBit ((MethodRun.start m).log (o.elem o.parent 0)
      (8*o.size%2^64)).marks l = true ↔ o.elem o.parent 0/64 ≤ l ∧
        l ≤ lastLine (addrData+o.elem o.parent 0) (8*o.size%2^64) := by
    have hmod : (addrData+o.elem o.parent 0)%2^40 = o.elem o.parent 0 :=
      Mapping.addr_add_mod .base (by omega)
    have hclear : lineBit (MethodRun.start m).marks l = false := by
      simp [MethodRun.start, lineBit]
    rw [MethodRun.log, lineBit_tasvirLog_lastLine, hmod, hclear, Bool.false_or,
      decide_eq_true_iff]
  simp only [hbits, CoversData]
  generalize lastLine (addrData+o.elem o.parent 0) (8*o.size%2^64) = e at hlast ⊢
  generalize o.elem o.parent 0 = p at hend hlast ⊢
  generalize E.size*o.size = n at hend hsize ⊢
  generalize (p+8*o.size-1)%2^40 = last at hlast ⊢
  constructor
  · intro hcov x h1 h2
    split_ifs at hlast <;> omega
  · intro hcov
    have hx := (hcov (p+n-1) (by omega) (by omega)).2
    split_ifs at hlast with hround
    · exact Or.inr hround
    · exact Or.inl (by omega)

theorem reduceAdd_logged (h : o.wid ≠ 0 ∨ o.size = 0 ∨ o.CoversData) (m : Bytes) :
    (o.reduceAdd (.start m)).Logged := by
  by_cases hw : o.wid = 0
  · apply (o.reduceAdd_stores hw _).logged
    · intro x hx
      cases hx
    · intro x h1 h2
      rcases Nat.eq_zero_or_pos o.size with h0 | h0
      · rw [h0] at h2
        omega
      · have hcov := (h.resolve_left (not_not.mpr hw)).resolve_left (by omega)
        exact (o.coversData_iff h0 m).mp hcov x h1 h2
  · intro x hx
    rw [reduceAdd, if_pos hw] at hx
    cases hx

/-- After the fill the old contents of the elements are gone. -/
theorem fill_mem_congr {s t : MethodRun} {x : ℕ} (n : ℕ)
    (h : s.mem x = t.mem x ∨ o.elem o.parent 0 ≤ x ∧ x < o.elem o.parent n) :
    ((List.range n).foldl (fun s i => s.store (o.elem o.parent i) E.zero) s).mem x =
      ((List.range n).foldl (fun s i => s.store (o.elem o.parent i) E.zero) t).mem x := by
  induction n with
  | zero =>
    rcases h with h | ⟨h1, h2⟩
    · exact h
    · omega
  | succ n ih =>
    have hnext : o.elem o.parent (n+1) = o.elem o.parent n+E.size := by
      simp only [elem, mul_add, mul_one, add_assoc]
    rw [List.range_succ, List.foldl_append, List.foldl_append, List.foldl_cons, List.foldl_nil,
      List.foldl_cons, List.foldl_nil, MethodRun.store_mem, MethodRun.store_mem, E.zero_length]
    split_ifs with hx
    · rfl
    · apply ih
      rcases h with h | ⟨h1, h2⟩
      · exact Or.inl h
      · exact Or.inr ⟨h1, by omega⟩

theorem foldl_mem_congr {α : Type*} (f : MethodRun → α → MethodRun)
    (hf : ∀ s t a, s.mem = t.mem → (f s a).mem = (f t a).mem) (l : List α) {s t : MethodRun}
    (h : s.mem = t.mem) : (l.foldl f s).mem = (l.foldl f t).mem := by
  induction l generalizing s t with
  | nil => exact h
  | cons a l ih => exact ih (hf s t a h)

theorem addWorkers_mem_congr {s t : MethodRun} (h : s.mem = t.mem) :
    (o.addWorkers s).mem = (o.addWorkers t).mem := by
  apply foldl_mem_congr _ _ _ h
  intro s t w h
  apply foldl_mem_congr _ _ _ h
  intro s t i h
  simp only [addElem, MethodRun.store, h]

/-- What `ReduceAdd` leaves does not depend on what the elements were. -/
theorem reduceAdd_mem_congr (hw : o.wid = 0) {m m' : Bytes}
    (h : ∀ x, x < o.elem o.parent 0 ∨ o.elem o.parent o.size ≤ x → m x = m' x) :
    (o.reduceAdd (.start m)).mem = (o.reduceAdd (.start m')).mem := by
  rw [reduceAdd, reduceAdd, if_neg (not_not.mpr hw), if_neg (not_not.mpr hw)]
  apply addWorkers_mem_congr
  funext x
  apply o.fill_mem_congr
  by_cases hx : x < o.elem o.parent 0 ∨ o.elem o.parent o.size ≤ x
  · exact Or.inl (h x hx)
  · exact Or.inr (by omega)

/-- Where the log falls short, the last byte of the elements is changed in some memory. -/
theorem reduceAdd_missed (hw : o.wid = 0) (h0 : 0 < o.size) (hcov : ¬o.CoversData) :
    ∃ m x, (o.reduceAdd (.start m)).mem x ≠ m x ∧
      lineBit (o.reduceAdd (.start m)).marks (x/64) = false := by
  have hmiss : ∃ x, o.elem o.parent 0 ≤ x ∧ x < o.elem o.parent 0+E.size*o.size ∧
      ∀ m, lineBit (o.reduceAdd (.start m)).marks (x/64) = false := by
    by_contra hno
    apply hcov
    apply (o.coversData_iff h0 fun _ => 0).mpr
    intro x h1 h2
    by_contra hbit
    apply hno
    refine ⟨x, h1, h2, ?_⟩
    intro m
    rw [(o.reduceAdd_stores hw _).marks]
    exact Bool.eq_false_iff.mpr hbit
  obtain ⟨x, h1, h2, hbit⟩ := hmiss
  -- the byte ends up the same from 0 and from 1, so one of the two changes
  have hsame : (o.reduceAdd (.start fun _ => 0)).mem =
      (o.reduceAdd (.start fun y => if y = x then 1 else 0)).mem := by
    apply o.reduceAdd_mem_congr hw
    intro y hy
    have hend : o.elem o.parent o.size = o.elem o.parent 0+E.size*o.size := by
      simp only [elem, mul_zero, add_zero]
    rw [if_neg (by omega)]
  by_cases hzero : (o.reduceAdd (.start fun _ => 0)).mem x = 0
  · refine ⟨fun y => if y = x then 1 else 0, x, ?_, hbit _⟩
    rw [← hsame, hzero]
    simp
  · exact ⟨fun _ => 0, x, hzero, hbit _⟩

/-! `ReduceSelect` and `CopySelect` store without a log. -/

/-- Copies that leave everything as it is. -/
theorem copyRanges_same {src dst : ℕ} {map : Selection o.size}
    (h : src = dst ∨ ∀ c ∈ map.ranges, c.1 = c.2) (s : MethodRun) :
    o.copyRanges src dst map s = s := by
  have hcopy (t : MethodRun) (c : ℕ × ℕ) (hc : c ∈ map.ranges) :
      t.store (o.elem dst c.1) (bytes t.mem (o.elem src c.1) (E.size*(c.2-c.1))) = t := by
    apply MethodRun.store_same
    funext x
    rw [store_bytes]
    split_ifs with hx
    · rcases h with rfl | hempty
      · rw [Nat.add_sub_cancel' hx.1]
      · rw [hempty c hc, Nat.sub_self, mul_zero] at hx
        omega
    · rfl
  apply List.foldlRecOn (motive := fun t => t = s) _ _ rfl
  rintro t rfl c hc
  exact hcopy t c hc

theorem elem_add {i j : ℕ} (h : i ≤ j) (a : ℕ) : o.elem a i+E.size*(j-i) = o.elem a j := by
  rw [elem, elem, add_assoc, ← mul_add, Nat.add_sub_cancel' h]

theorem elem_bounds {i : ℕ} (h : i ≤ o.size) (a : ℕ) :
    a ≤ o.elem a i ∧ o.elem a i ≤ a+E.extent o.size := by
  have hmul : E.size*i ≤ E.size*o.size := Nat.mul_le_mul_left _ h
  rw [elem, ElemType.extent]
  omega

theorem copyRanges_stores (src dst : ℕ) (map : Selection o.size) (s : MethodRun) :
    s.Stores dst (dst+E.extent o.size) (o.copyRanges src dst map s) := by
  apply List.foldlRecOn
  · exact .refl
  · intro t ht c hc
    obtain ⟨hle, hsize⟩ := map.valid c hc
    apply ht.tail
    · exact (o.elem_bounds (hle.trans hsize) dst).1
    · rw [length_bytes, o.elem_add hle]
      exact (o.elem_bounds hsize dst).2

/-- A byte of a range that is copied from ones is one. -/
theorem copy_ones {src dst : ℕ} {l : List (ℕ × ℕ)} (hl : ∀ c ∈ l, c.1 ≤ c.2 ∧ c.2 ≤ o.size)
    {s : MethodRun} {x : ℕ} (hones : ∀ y, src ≤ y → y < src+E.extent o.size → s.mem y = 1)
    (hx : s.mem x = 1 ∨ ∃ c ∈ l, o.elem dst c.1 ≤ x ∧ x < o.elem dst c.2) :
    (l.foldl (fun s c => s.store (o.elem dst c.1)
      (bytes s.mem (o.elem src c.1) (E.size*(c.2-c.1)))) s).mem x = 1 := by
  induction l generalizing s with
  | nil =>
    rcases hx with hx | ⟨c, hc, -⟩
    · exact hx
    · cases hc
  | cons c l ih =>
    obtain ⟨hle, hsize⟩ := hl c List.mem_cons_self
    have hlo := (o.elem_bounds (hle.trans hsize) src).1
    have hhi := (o.elem_bounds hsize src).2
    have hsrc := o.elem_add hle src
    have hdst := o.elem_add hle dst
    have hstore (y : ℕ) : (s.store (o.elem dst c.1)
        (bytes s.mem (o.elem src c.1) (E.size*(c.2-c.1)))).mem y =
        if o.elem dst c.1 ≤ y ∧ y < o.elem dst c.2 then 1 else s.mem y := by
      simp only [MethodRun.store, store_bytes, hdst]
      split_ifs
      · exact hones _ (by omega) (by omega)
      · rfl
    rw [List.foldl_cons]
    apply ih (fun c hc => hl c (List.mem_cons_of_mem _ hc))
    · intro y h1 h2
      rw [hstore]
      split_ifs
      · rfl
      · exact hones y h1 h2
    · rw [hstore]
      split_ifs with hin
      · exact Or.inl rfl
      · rcases hx with hx | ⟨c', hc', hx⟩
        · exact Or.inl hx
        · rcases List.mem_cons.mp hc' with rfl | hc'
          · exact absurd hx hin
          · exact Or.inr ⟨c', hc', hx⟩

/-- A copy between two objects changes a byte in some memory, and marks nothing. -/
theorem copyRanges_missed {src dst : ℕ} {map : Selection o.size}
    (hapart : src+E.extent o.size ≤ dst ∨ dst+E.extent o.size ≤ src)
    (h : ∃ c ∈ map.ranges, c.1 ≠ c.2) :
    ∃ m x, (o.copyRanges src dst map (.start m)).mem x ≠ m x ∧
      lineBit (o.copyRanges src dst map (.start m)).marks (x/64) = false := by
  obtain ⟨c, hc, hne⟩ := h
  obtain ⟨hle, hsize⟩ := map.valid c hc
  have hpos : 0 < E.size*(c.2-c.1) := Nat.mul_pos E.size_pos (by omega)
  have hdst := o.elem_add hle dst
  have hlo := (o.elem_bounds (hle.trans hsize) dst).1
  have hhi := (o.elem_bounds hsize dst).2
  let m : Bytes := fun y => if src ≤ y ∧ y < src+E.extent o.size then 1 else 0
  refine ⟨m, o.elem dst c.1, ?_, ?_⟩
  · have hone : (o.copyRanges src dst map (.start m)).mem (o.elem dst c.1) = 1 := by
      apply o.copy_ones map.valid
      · intro y h1 h2
        exact if_pos ⟨h1, h2⟩
      · exact Or.inr ⟨c, hc, le_rfl, by omega⟩
    have hzero : m (o.elem dst c.1) = 0 := by
      apply if_neg
      omega
    rw [hone, hzero]
    norm_num
  · rw [(o.copyRanges_stores src dst map _).marks]
    simp [MethodRun.start, lineBit]

end ArrayHandle

section
variable {E : ElemType} (o : ArrayHandle E)

/-- When a call logs what it writes, for every memory. -/
def ArrayCall.LogsWrites : ArrayCall o.size → Prop
  | .reduceAdd => o.wid ≠ 0 ∨ o.size = 0 ∨ o.CoversData
  | .reduceSelect map => o.self = o.parent ∨ ∀ c ∈ map.ranges, c.1 = c.2
  | .copySelect map => o.self = o.parent ∨ ∀ c ∈ map.ranges, c.1 = c.2
  | .barrier _ => True

theorem start_logged (m : Bytes) : (MethodRun.start m).Logged := by
  intro x hx
  cases hx

theorem logged_of_logsWrites (c : ArrayCall o.size) (h : c.LogsWrites o) (m : Bytes) :
    (c.run o m).Logged := by
  cases c with
  | reduceAdd => exact o.reduceAdd_logged h m
  | reduceSelect map =>
    rw [ArrayCall.run, ArrayHandle.reduceSelect, o.copyRanges_same h]
    exact start_logged m
  | copySelect map =>
    rw [ArrayCall.run, ArrayHandle.copySelect, o.copyRanges_same (h.imp_left Eq.symm)]
    exact start_logged m
  | barrier env => exact o.barrier_logged (start_logged m) env

/-- In some memory a byte is not as before after the call, and its line is not marked. -/
theorem missed_of_not_logsWrites (c : ArrayCall o.size) (h : ¬c.LogsWrites o) :
    ∃ m x, (c.run o m).mem x ≠ m x ∧ lineBit (c.run o m).marks (x/64) = false := by
  have hselect {P : Prop} (hor : ¬(o.self = o.parent ∨ P)) :
      o.self+E.extent o.size ≤ o.parent ∨ o.parent+E.extent o.size ≤ o.self :=
    o.apart.resolve_left fun he => hor (Or.inl he)
  have hrange {map : Selection o.size} (hor : ¬(o.self = o.parent ∨ ∀ c ∈ map.ranges, c.1 = c.2)) :
      ∃ c ∈ map.ranges, c.1 ≠ c.2 := by
    by_contra hno
    apply hor
    right
    intro c hc
    by_contra hne
    exact hno ⟨c, hc, hne⟩
  cases c with
  | reduceAdd =>
    simp only [ArrayCall.LogsWrites, not_or, not_not] at h
    exact o.reduceAdd_missed h.1 (Nat.pos_of_ne_zero h.2.1) h.2.2
  | reduceSelect map => exact o.copyRanges_missed (hselect h) (hrange h)
  | copySelect map => exact o.copyRanges_missed (hselect h).symm (hrange h)
  | barrier env => exact absurd trivial h

/-- Such a byte has been changed by the call itself, which has not waited for others. -/
theorem changed_of_mem_ne (c : ArrayCall o.size) (hc : ∀ env, c ≠ .barrier env) {m : Bytes} {x : ℕ}
    (h : (c.run o m).mem x ≠ m x) : (c.run o m).changed x = true := by
  cases c with
  | reduceAdd =>
    by_cases hw : o.wid = 0
    · exact (o.reduceAdd_stores hw _).changed h
    · rw [ArrayCall.run, ArrayHandle.reduceAdd, if_pos hw] at h
      exact absurd rfl h
  | reduceSelect map => exact (o.copyRanges_stores _ _ map _).changed h
  | copySelect map => exact (o.copyRanges_stores _ _ map _).changed h
  | barrier env => exact absurd rfl (hc env)

theorem logged_iff_logsWrites (c : ArrayCall o.size) :
    (∀ m, (c.run o m).Logged) ↔ c.LogsWrites o := by
  constructor
  · intro hlogged
    by_contra h
    obtain ⟨m, x, hne, hbit⟩ := missed_of_not_logsWrites o c h
    have hcall (env : List Bytes) : c ≠ .barrier env := by
      rintro rfl
      exact h trivial
    have hset := hlogged m x (changed_of_mem_ne o c hcall hne)
    rw [hbit] at hset
    cases hset
  · exact fun h m => logged_of_logsWrites o c h m

end

/-- A sequence of calls: the memory, and the records of the calls made so far. -/
structure ArrayRuns where
  mem : Bytes
  calls : List MethodRun

inductive ArrayStep (E : ElemType)
  /-- a call on any of the objects of an array -/
  | call (o : ArrayHandle E) (c : ArrayCall o.size)
  /-- syncs and stores of others -/
  | other (m : Bytes)

def ArrayStep.LogsWrites {E : ElemType} : ArrayStep E → Prop
  | .call o c => c.LogsWrites o
  | .other _ => True

def arrayCalls (E : ElemType) : System ArrayRuns (ArrayStep E) where
  init s := s.calls = []
  pre _ _ := True
  next
    | s, .call o c => ⟨(c.run o s.mem).mem, s.calls ++ [c.run o s.mem]⟩
    | s, .other m => { s with mem := m }

/-- In every sequence of calls that all log their writes, each changed byte is in a line marked
by the call that changed it. Any other call misses a byte that it has changed in some memory. -/
theorem arrayCalls_logged (E : ElemType) :
    (∀ s, ((arrayCalls E).restrict fun _ a => a.LogsWrites).Reachable s →
      ∀ r ∈ s.calls, r.Logged) ∧
    ∀ (o : ArrayHandle E) (c : ArrayCall o.size),
      ((∀ m, (c.run o m).Logged) ↔ c.LogsWrites o) ∧
      (¬c.LogsWrites o → ∃ m x, (c.run o m).mem x ≠ m x ∧
        lineBit (c.run o m).marks (x/64) = false) := by
  constructor
  · intro s h
    apply h.invariant (P := fun s => ∀ r ∈ s.calls, r.Logged)
    · intro s hs r hr
      rw [show s.calls = [] from hs] at hr
      cases hr
    · rintro s (⟨o, c⟩ | m) ih ⟨-, hok⟩ r hr
      · rcases List.mem_append.mp hr with hr | hr
        · exact ih r hr
        · rw [List.mem_singleton.mp hr]
          exact logged_of_logsWrites o c hok s.mem
      · exact ih r hr
  · intro o c
    exact ⟨logged_iff_logsWrites o c, missed_of_not_logsWrites o c⟩

/-- An unsigned integer of `n` bytes as the element type. -/
def uintElem (n : ℕ) (hn : 0 < n) : ElemType where
  size := n
  zero := encode n 0
  add a b := encode n (load (fun i => a.getD i 0) 0 n+load (fun i => b.getD i 0) 0 n)
  size_pos := hn
  zero_length := length_encode n 0
  add_length _ _ := length_encode n _

def uint64Elem : ElemType := uintElem 8 (by decide)

def uint128Elem : ElemType := uintElem 16 (by decide)

/-- An object of an array of five elements whose parent is in the area at 32768. -/
def fiveHandle (E : ElemType) (hE : E.size ≤ 1000) (wid h : ℕ) (hh : 32768 ∣ h) (h0 : 32768 ≤ h)
    (h1 : h ≤ 65536) : ArrayHandle E where
  size := 5
  nrWorkers := 0
  wid := wid
  self := h+sizeofHeader
  parent := 32768+sizeofHeader
  workers _ := 0
  self_payload := ⟨by rwa [Nat.add_sub_cancel], Nat.le_add_left _ _⟩
  parent_payload := by decide
  self_inside := by
    simp only [ElemType.extent, sizeofHeader, offArrayData]
    omega
  parent_inside := by
    simp only [ElemType.extent, sizeofHeader, offArrayData]
    omega
  apart := by
    simp only [ElemType.extent, sizeofHeader, offArrayData]
    omega

/-- Worker 0, which is its own parent. -/
def rootWorker (E : ElemType) (hE : E.size ≤ 1000) : ArrayHandle E :=
  fiveHandle E hE 0 32768 (by decide) (by decide) (by decide)

/-- Worker 1 of an array of words. -/
def wordsWorker : ArrayHandle uint64Elem :=
  fiveHandle uint64Elem (by decide) 1 65536 (by decide) (by decide) (by decide)

/-- Elements of eight bytes: `ReduceAdd` clears what was there, then the workers meet. -/
theorem arrayCalls_logged_words : ∃ s : ArrayRuns,
    ((arrayCalls uint64Elem).restrict fun _ a => a.LogsWrites).Reachable s ∧
    s.calls.length = 2 ∧ (∃ r ∈ s.calls, ∃ x, r.changed x = true) ∧ ∀ r ∈ s.calls, r.Logged := by
  let acts : List (ArrayStep uint64Elem) :=
    [.call (rootWorker uint64Elem (by decide)) .reduceAdd,
      .call (rootWorker uint64Elem (by decide)) (.barrier [])]
  have hinit : ((arrayCalls uint64Elem).restrict fun _ a => a.LogsWrites).Reachable
      ⟨fun _ => 1, []⟩ := .init rfl
  have hrun := hinit.run acts
    ⟨⟨trivial, Or.inr (Or.inr (Or.inl (by decide)))⟩, ⟨trivial, trivial⟩, trivial⟩
  refine ⟨_, hrun, rfl, ⟨_, List.mem_cons_self, 42432, by decide⟩, ?_⟩
  exact (arrayCalls_logged uint64Elem).1 _ hrun

/-- The worker takes the first element from its parent, whose bytes are all 1. -/
def takingRun : MethodRun :=
  (ArrayCall.copySelect ⟨[(0, 1)], by decide⟩).run wordsWorker fun y => if y < 65536 then 1 else 0

/-- The worker, whose bytes are all 1, gives the first element to its parent. -/
def givingRun : MethodRun :=
  (ArrayCall.reduceSelect ⟨[(0, 1)], by decide⟩).run wordsWorker fun y => if y < 65536 then 0 else 1

/-- Five elements of sixteen bytes, all 1, are cleared. -/
def clearingRun : MethodRun :=
  ArrayCall.reduceAdd.run (rootWorker uint128Elem (by decide)) fun _ => 1

/-- The selections mark nothing, and `ReduceAdd` clears 80 bytes and logs 40: a byte that each
of the three has changed is in a line that it has not marked. -/
theorem not_arrayCalls_logged :
    (takingRun.mem 75200 = 1 ∧ takingRun.changed 75200 = true ∧
      lineBit takingRun.marks (75200/64) = false ∧ ¬takingRun.Logged) ∧
    (givingRun.mem 42432 = 1 ∧ givingRun.changed 42432 = true ∧
      lineBit givingRun.marks (42432/64) = false ∧ ¬givingRun.Logged) ∧
    (clearingRun.mem 42511 = 0 ∧ clearingRun.changed 42511 = true ∧
      lineBit clearingRun.marks (42511/64) = false ∧ ¬clearingRun.Logged) := by
  have hmiss {r : MethodRun} {x : ℕ} (hc : r.changed x = true)
      (hb : lineBit r.marks (x/64) = false) : ¬r.Logged := by
    intro h
    have hset := h x hc
    rw [hb] at hset
    cases hset
  have hclear (m : Bytes) (l : ℕ) : lineBit (MethodRun.start m).marks l = false := by
    simp [MethodRun.start, lineBit]
  have htake : lineBit takingRun.marks (75200/64) = false := by
    rw [takingRun, ArrayCall.run, ArrayHandle.copySelect,
      (wordsWorker.copyRanges_stores _ _ _ _).marks, hclear]
  have hgive : lineBit givingRun.marks (42432/64) = false := by
    rw [givingRun, ArrayCall.run, ArrayHandle.reduceSelect,
      (wordsWorker.copyRanges_stores _ _ _ _).marks, hclear]
  have hreduce : lineBit clearingRun.marks (42511/64) = false := by
    rw [clearingRun, ArrayCall.run, (ArrayHandle.reduceAdd_stores _ rfl _).marks,
      Bool.eq_false_iff]
    intro hset
    rcases (MethodRun.lineBit_log (by decide) (by decide) _).mp hset with hold | ⟨x, h1, h2, h3⟩
    · rw [hclear] at hold
      cases hold
    · change x ≤ 42432+40-1 at h2
      omega
  have h1 : takingRun.changed 75200 = true := by decide
  have h2 : givingRun.changed 42432 = true := by decide
  have h3 : clearingRun.changed 42511 = true := by decide
  exact ⟨⟨by decide, h1, htake, hmiss h1 htake⟩, ⟨by decide, h2, hgive, hmiss h2 hgive⟩,
    by decide, h3, hreduce, hmiss h3 hreduce⟩

end Tasvir
