import Mathlib.Tactic
import Mathlib.Order.CompletePartialOrder
import Tasvir.Machine
import Tasvir.SyncList
import Tasvir.WriteLog

/-! Allocation in containers. `tasvir_new` computes the sizes of an area, the
owner of the parent container places it with `tasvir_new_alloc_desc`, and the
caller then writes the header. Addresses and sizes are 64-bit. -/
namespace Tasvir

/-- `sizeof(tasvir_area_desc)`. -/
def sizeofDesc : ℕ := 112

/-- Offset of `nr_areas` in `tasvir_area_header`. -/
def offNrAreas : ℕ := 88

/-- Offset of `d` in `tasvir_area_header`, after the line that is not synced. -/
def offD : ℕ := 64

/-- TASVIR_ALIGNMENT. -/
def alignment : ℕ := 8*2^12

/-- Truncation to `size_t`. -/
def u64 (x : ℕ) : ℕ := x%2^64

/-- TASVIR_ALIGNX: `((uintptr_t)(x)+a-1)&~(a-1)`. -/
def alignx (x a : ℕ) : ℕ := u64 (x+a-1) &&& (2^64-1-(a-1))

/-- TASVIR_ALIGN. -/
def tasvirAlign (x : ℕ) : ℕ := alignx x alignment

theorem and_high_mask (y k : ℕ) (hk : k ≤ 64) (hy : y < 2^64) :
    y &&& (2^64-2^k) = y/2^k*2^k := by
  have hm : 2^64-2^k = 2^k*(2^(64-k)-1) := by
    rw [Nat.mul_sub, ← pow_add, Nat.mul_one]
    congr 2
    omega
  rw [hm, Nat.mul_comm (y/2^k)]
  apply Nat.eq_of_testBit_eq
  intro i
  rw [Nat.testBit_and, Nat.testBit_two_pow_mul, Nat.testBit_two_pow_mul,
    Nat.testBit_two_pow_sub_one, Nat.testBit_div_two_pow]
  by_cases hki : k ≤ i
  · simp only [hki, decide_true, Bool.true_and, show i-k+k = i from by omega]
    by_cases hi : i < 64
    · simp [show i-k < 64-k from by omega]
    · have hlt : y < 2^i := lt_of_lt_of_le hy (Nat.pow_le_pow_right (by norm_num) (by omega))
      simp [Nat.testBit_lt_two_pow hlt]
  · simp [hki]

theorem alignx_eq (x k : ℕ) (hk : k ≤ 64) (hx : x+2^k-1 < 2^64) :
    alignx x (2^k) = (x+2^k-1)/2^k*2^k := by
  have hp := Nat.one_le_two_pow (n := k)
  rw [alignx, u64, Nat.mod_eq_of_lt hx, show 2^64-1-(2^k-1) = 2^64-2^k from by omega]
  exact and_high_mask _ k hk hx

theorem tasvirAlign_eq (x : ℕ) (hx : x+32767 < 2^64) : tasvirAlign x = (x+32767)/32768*32768 :=
  alignx_eq x 15 (by norm_num) hx

theorem alignx_eight (x : ℕ) (hx : x+7 < 2^64) : alignx x 8 = (x+7)/8*8 :=
  alignx_eq x 3 (by norm_num) hx

/-- `tasvir_str`. -/
abbrev Str := Vector UInt8 32

/-- The bytes from the start of a string on. -/
def Str.chars (s : Str) : ℕ → UInt8 := fun i => s.toList.getD i 0

/-- `strncmp` from position `i` on, with `n` characters left. -/
def strncmp (a b : ℕ → UInt8) (i : ℕ) : ℕ → ℤ
  | 0 => 0
  | n+1 =>
    if a i ≠ b i then (a i).toNat-(b i).toNat
    else if a i = 0 then 0
    else strncmp a b (i+1) n

theorem strncmp_self (a : ℕ → UInt8) (i n : ℕ) : strncmp a a i n = 0 := by
  induction n generalizing i with
  | zero => rfl
  | succ n ih => simp [strncmp, ih]

theorem strncmp_comm (a b : ℕ → UInt8) (i n : ℕ) : strncmp a b i n = -strncmp b a i n := by
  induction n generalizing i with
  | zero => rfl
  | succ n ih =>
    unfold strncmp
    by_cases h : a i = b i
    · simp only [h, ne_eq, not_true, ↓reduceIte]
      split
      · rfl
      · exact ih (i+1)
    · simp only [h, Ne.symm h, ne_eq, not_false_eq_true, ↓reduceIte]
      omega

/-- `tasvir_area_type`. -/
inductive AreaType
  | invalid | container | node | app
deriving DecidableEq, Repr

/-- `tasvir_area_desc`; pointers are addresses and 0 is NULL. -/
structure Desc where
  pd : ℕ := 0
  h : ℕ := 0
  owner : ℕ := 0
  len : ℕ := 0
  offsetLogEnd : ℕ := 0
  nrAreasMax : ℕ := 0
  name : Str := Vector.replicate 32 0
  bootUs : ℕ := 0
  syncIntUs : ℕ := 0
  syncExtUs : ℕ := 0
  type : AreaType := .invalid
deriving DecidableEq, Repr

/-- A container: its descriptor, the fields of its header that allocation uses,
and the array `c` of descriptors that `tasvir_data` points to. -/
structure Container where
  desc : Desc
  d : ℕ
  nrAreas : ℕ
  diffLog0 : ℕ
  c : ℕ → Desc

/-- What `tasvir_new` and `tasvir_new_alloc_desc` read of the two threads: the
caller, the root, `sync_ext_us` of the owner's node and the owner's clock. -/
structure AllocEnv where
  thread : ℕ
  rootDesc : ℕ
  nodeSyncExtUs : Option ℕ
  timeUs : ℕ

/-- The local variables of `tasvir_new` that describe the layout. -/
structure Layout where
  sizeMetadata : ℕ
  offsetLogEnd : ℕ
  offsetLog : ℕ
  sizeLog : ℕ
  len : ℕ

/-- "calculate space requirements". -/
def spaceRequirements (desc : Desc) : Layout :=
  let sizeMetadata := u64 (sizeofHeader+u64 (desc.nrAreasMax*sizeofDesc))
  let offsetLogEnd :=
    tasvirAlign (u64 (sizeMetadata+(if desc.type = .container then 0 else desc.len)))
  let offsetLog := tasvirAlign (u64 (sizeMetadata+desc.len))
  let sizeLog := alignx (offsetLogEnd >>> 9) 8
  { sizeMetadata, offsetLogEnd, offsetLog, sizeLog
    len := u64 (offsetLog+tasvirAlign (u64 (nrAreaLogs*sizeLog))) }

/-- The defaults of `tasvir_new`, after boot. -/
def withDefaults (env : AllocEnv) (desc : Desc) : Desc :=
  { desc with
    syncIntUs := if desc.syncIntUs = 0 then 100*1000 else desc.syncIntUs
    syncExtUs := if desc.syncExtUs = 0 then 250*1000 else desc.syncExtUs
    type := if desc.type = .invalid then .app else desc.type
    owner := env.thread
    pd := if desc.pd = 0 then env.rootDesc else desc.pd }

/-- The descriptor that `tasvir_new` passes to `tasvir_new_alloc_desc`. -/
def newDesc (env : AllocEnv) (desc : Desc) : Desc :=
  { withDefaults env desc with
    offsetLogEnd := (spaceRequirements (withDefaults env desc)).offsetLogEnd
    len := (spaceRequirements (withDefaults env desc)).len }

namespace Container

/-- `tasvir_data`. -/
def data (ct : Container) : ℕ := u64 (ct.desc.h+sizeofHeader)

/-- The end of the last child, or of the descriptors when there is none. -/
def lastEnd (ct : Container) : ℕ :=
  if 0 < ct.nrAreas then (ct.c (ct.nrAreas-1)).h+(ct.c (ct.nrAreas-1)).len
  else ct.data+ct.desc.nrAreasMax*sizeofDesc

/-- `h` of the next child. -/
def nextH (ct : Container) : ℕ := tasvirAlign (u64 ct.lastEnd)

/-- "ensure area does not exist". -/
def hasName (ct : Container) (name : Str) : Bool :=
  (List.range ct.nrAreas).any fun i => strncmp (ct.c i).name.chars name.chars 0 32 = 0

/-- `tasvir_new_alloc_desc` at the owner of a container other than the orphan
root; the result is the log, the container and the index of the new descriptor. -/
def tasvirNewAllocDesc (env : AllocEnv) (log : Words) (ct : Container) (desc : Desc) :
    Words × Container × Option ℕ :=
  if ct.desc.nrAreasMax ≤ ct.nrAreas then (log, ct, none)
  else if ct.hasName desc.name then (log, ct, none)
  else if ct.diffLog0 ≤ u64 (ct.nextH+desc.len) then (log, ct, none)
  else
    -- the counter and the new descriptor are logged
    let log := tasvirLog log (u64 (ct.desc.h+offNrAreas)) 8
    let log := tasvirLog log (u64 (ct.data+ct.nrAreas*sizeofDesc)) sizeofDesc
    let desc := { desc with
      h := ct.nextH
      -- a node area takes over the interval of the own node's area
      syncExtUs := if desc.type = .node then env.nodeSyncExtUs.getD desc.syncExtUs else desc.syncExtUs
      bootUs := env.timeUs }
    (log, { ct with nrAreas := ct.nrAreas+1, c := Function.update ct.c ct.nrAreas desc },
      some ct.nrAreas)

/-- The container that `tasvir_new` leaves at `desc` when `desc` was accepted,
with its descriptor at address `d`: the metadata is zeroed and the header set. -/
def created (d offsetLog : ℕ) (desc : Desc) : Container :=
  { desc, d, nrAreas := 0, diffLog0 := u64 (desc.h+offsetLog), c := fun _ => {} }

end Container

/-- What `tasvir_area_get_by_name` returns. -/
inductive FoundArea
  | root
  | child (i : ℕ)
deriving DecidableEq, Repr

/-- `tasvir_area_get_by_name`. -/
def tasvirAreaGetByName (pd : Option Container) (name : ℕ → UInt8) : Option FoundArea :=
  match pd with
  | none => if name 0 = 47 then some .root else none
  | some ct =>
    if ct.desc.type = .container ∧ ct.desc.h ≠ 0 ∧ ct.d ≠ 0 then
      ((List.range ct.nrAreas).find? fun i =>
        strncmp (ct.c i).name.chars name 0 32 = 0).map .child
    else none

/-- The log and the containers, named by the indices that lead to them. -/
structure AreaTree where
  log : Words
  areas : List ℕ → Option Container

/-- One call of `tasvir_new` by any thread for a child of the container at `path`. -/
structure NewCall where
  path : List ℕ
  env : AllocEnv
  desc : Desc

/-- `tasvir_new` when the parent is the container at `path`. -/
def AreaTree.tasvirNew (s : AreaTree) (a : NewCall) : AreaTree :=
  match s.areas a.path with
  | none => s
  | some ct =>
    -- the owner of the parent makes the descriptor
    let r := ct.tasvirNewAllocDesc a.env s.log (newDesc a.env a.desc)
    let areas := Function.update s.areas a.path (some r.2.1)
    match r.2.2 with
    | none => { log := r.1, areas }
    | some i =>
      let desc := r.2.1.c i
      let offsetLog := (spaceRequirements (withDefaults a.env a.desc)).offsetLog
      let child := Container.created (u64 (ct.data+i*sizeofDesc)) offsetLog desc
      { log := tasvirLog r.1 (u64 (desc.h+offD)) (sizeofHeader-offD)
        -- a new container holds no areas yet
        areas := if desc.type = .container then Function.update areas (a.path++[i]) (some child)
          else areas }

/-- The sizes in `tasvir_new` do not exceed 2^64. -/
structure Desc.Small (desc : Desc) : Prop where
  metadata : sizeofHeader+desc.nrAreasMax*sizeofDesc+desc.len+32767 < 2^64
  len : (spaceRequirements desc).offsetLog+
    tasvirAlign (nrAreaLogs*(spaceRequirements desc).sizeLog) < 2^64

/-- No address computed for a child with the given size exceeds 2^64. -/
structure Container.Room (ct : Container) (desc : Desc) : Prop where
  align : ct.lastEnd+32767 < 2^64
  place : ct.nextH+(spaceRequirements desc).len < 2^64

/-- A fresh container anywhere: `tasvir_new` has placed it at an aligned address,
as the two branches of `tasvir_new_alloc_desc` and `tasvir_init_root` do. -/
def Container.Fresh (ct : Container) : Prop :=
  ∃ (env : AllocEnv) (desc : Desc) (d x : ℕ),
    (withDefaults env desc).Small ∧ desc.type = .container ∧ d ≠ 0 ∧ 0 < x ∧ x+32767 < 2^64 ∧
    tasvirAlign x+(spaceRequirements (withDefaults env desc)).len < 2^64 ∧
    ct = .created d (spaceRequirements (withDefaults env desc)).offsetLog
      { newDesc env desc with h := tasvirAlign x }

def containerSystem : Machine.System AreaTree NewCall where
  init := fun s => ∃ ct, ct.Fresh ∧ s.areas = Function.update (fun _ => none) [] (some ct)
  pre := fun s a => ∃ ct, s.areas a.path = some ct ∧ (withDefaults a.env a.desc).Small ∧
    ct.Room (withDefaults a.env a.desc)
  next := AreaTree.tasvirNew

/-- What holds of every container at all times. -/
structure Container.Inv (ct : Container) : Prop where
  type : ct.desc.type = .container
  h_pos : 0 < ct.desc.h
  d_ne : ct.d ≠ 0
  aligned : 32768 ∣ ct.desc.h
  metadata : ct.desc.offsetLogEnd = (sizeofHeader+ct.desc.nrAreasMax*sizeofDesc+32767)/32768*32768
  room : ct.desc.h+sizeofHeader+ct.desc.nrAreasMax*sizeofDesc < 2^64
  count : ct.nrAreas ≤ ct.desc.nrAreasMax
  child_aligned : ∀ i < ct.nrAreas, 32768 ∣ (ct.c i).h ∧ 32768 ∣ (ct.c i).len
  child_pos : ∀ i < ct.nrAreas, 0 < (ct.c i).len
  child_start : ∀ i < ct.nrAreas, ct.desc.h+ct.desc.offsetLogEnd ≤ (ct.c i).h
  child_end : ∀ i < ct.nrAreas, (ct.c i).h+(ct.c i).len < ct.diffLog0
  order : ∀ i j, i < j → j < ct.nrAreas → (ct.c i).h+(ct.c i).len ≤ (ct.c j).h
  names : ∀ i j, i < j → j < ct.nrAreas →
    strncmp (ct.c i).name.chars (ct.c j).name.chars 0 32 ≠ 0

theorem dvd_tasvirAlign (x : ℕ) : 32768 ∣ tasvirAlign x := by
  have h := and_high_mask (u64 (x+32768-1)) 15 (by norm_num) (Nat.mod_lt _ (by norm_num))
  change 32768 ∣ u64 (x+32768-1) &&& (2^64-2^15)
  rw [h]
  exact dvd_mul_left _ _

/-- The layout in exact arithmetic. -/
theorem spaceRequirements_spec (desc : Desc) (hs : desc.Small) :
    (spaceRequirements desc).offsetLogEnd = (sizeofHeader+desc.nrAreasMax*sizeofDesc+
      (if desc.type = .container then 0 else desc.len)+32767)/32768*32768 ∧
    sizeofHeader+desc.nrAreasMax*sizeofDesc+desc.len ≤ (spaceRequirements desc).offsetLog ∧
    (spaceRequirements desc).offsetLog ≤ (spaceRequirements desc).len ∧
    32768 ∣ (spaceRequirements desc).len := by
  have hm := hs.metadata
  have hlen := hs.len
  have hmeta : (spaceRequirements desc).sizeMetadata = sizeofHeader+desc.nrAreasMax*sizeofDesc := by
    unfold spaceRequirements u64
    simp only
    rw [Nat.mod_eq_of_lt (a := desc.nrAreasMax*sizeofDesc) (by omega), Nat.mod_eq_of_lt (by omega)]
  have hle : (if desc.type = .container then 0 else desc.len) ≤ desc.len := by
    split <;> omega
  have hend : (spaceRequirements desc).offsetLogEnd = (sizeofHeader+desc.nrAreasMax*sizeofDesc+
      (if desc.type = .container then 0 else desc.len)+32767)/32768*32768 := by
    change tasvirAlign (u64 ((spaceRequirements desc).sizeMetadata+_)) = _
    rw [hmeta, u64, Nat.mod_eq_of_lt (by omega), tasvirAlign_eq _ (by omega)]
  have hoff : (spaceRequirements desc).offsetLog =
      (sizeofHeader+desc.nrAreasMax*sizeofDesc+desc.len+32767)/32768*32768 := by
    change tasvirAlign (u64 ((spaceRequirements desc).sizeMetadata+desc.len)) = _
    rw [hmeta, u64, Nat.mod_eq_of_lt (by omega), tasvirAlign_eq _ (by omega)]
  have hlog : (spaceRequirements desc).sizeLog < 2^60 := by
    change alignx ((spaceRequirements desc).offsetLogEnd >>> 9) 8 < 2^60
    rw [Nat.shiftRight_eq_div_pow, alignx_eight _ (by omega)]
    omega
  have hl : (spaceRequirements desc).len = (spaceRequirements desc).offsetLog+
      tasvirAlign (nrAreaLogs*(spaceRequirements desc).sizeLog) := by
    change u64 ((spaceRequirements desc).offsetLog+
      tasvirAlign (u64 (nrAreaLogs*(spaceRequirements desc).sizeLog))) = _
    rw [u64, u64, Nat.mod_eq_of_lt (a := nrAreaLogs*_) (by unfold nrAreaLogs; omega),
      Nat.mod_eq_of_lt hlen]
  refine ⟨hend, by omega, by omega, ?_⟩
  rw [hl, hoff]
  exact dvd_add (dvd_mul_left _ _) (dvd_tasvirAlign _)

/-- The two outcomes of a request: nothing happens, or the child is placed after
the last one and before the log. -/
theorem Container.alloc_cases (env : AllocEnv) (log : Words) (ct : Container) (desc : Desc) :
    ct.tasvirNewAllocDesc env log desc = (log, ct, none) ∨
    ∃ log' x, ct.tasvirNewAllocDesc env log desc =
        (log', { ct with nrAreas := ct.nrAreas+1, c := Function.update ct.c ct.nrAreas x },
          some ct.nrAreas) ∧
      ct.nrAreas < ct.desc.nrAreasMax ∧ ct.hasName desc.name = false ∧
      u64 (ct.nextH+desc.len) < ct.diffLog0 ∧
      x.h = ct.nextH ∧ x.len = desc.len ∧ x.offsetLogEnd = desc.offsetLogEnd ∧
      x.nrAreasMax = desc.nrAreasMax ∧ x.name = desc.name ∧ x.type = desc.type := by
  unfold Container.tasvirNewAllocDesc
  by_cases hmax : ct.desc.nrAreasMax ≤ ct.nrAreas
  · simp [hmax]
  · by_cases hname : ct.hasName desc.name
    · simp [hmax, hname]
    · by_cases hspace : ct.diffLog0 ≤ u64 (ct.nextH+desc.len)
      · simp [hmax, hname, hspace]
      · right
        simp only [hmax, hname, hspace, ↓reduceIte]
        exact ⟨_, _, rfl, by omega, by simp, by omega, rfl, rfl, rfl, rfl, rfl, rfl⟩

section
variable {ct : Container}

theorem Container.Inv.data_eq (hi : ct.Inv) : ct.data = ct.desc.h+sizeofHeader := by
  have hroom := hi.room
  rw [Container.data, u64, Nat.mod_eq_of_lt (by omega)]

/-- The next child starts at or after the metadata and the end of every child. -/
theorem Container.Inv.nextH_spec (hi : ct.Inv) (hroom : ct.lastEnd+32767 < 2^64) :
    ct.desc.h+ct.desc.offsetLogEnd ≤ ct.nextH ∧
    ∀ i < ct.nrAreas, (ct.c i).h+(ct.c i).len ≤ ct.nextH := by
  have hnext : ct.nextH = (ct.lastEnd+32767)/32768*32768 := by
    rw [Container.nextH, u64, Nat.mod_eq_of_lt (by omega), tasvirAlign_eq _ hroom]
  have hmeta := hi.metadata
  by_cases hn : 0 < ct.nrAreas
  · have hlast : ct.lastEnd = (ct.c (ct.nrAreas-1)).h+(ct.c (ct.nrAreas-1)).len := if_pos hn
    have hstart := hi.child_start (ct.nrAreas-1) (by omega)
    refine ⟨by omega, ?_⟩
    intro i hin
    rcases Nat.lt_or_ge i (ct.nrAreas-1) with h | h
    · have hord := hi.order i (ct.nrAreas-1) h (by omega)
      omega
    · rw [show i = ct.nrAreas-1 from by omega]
      omega
  · have hlast : ct.lastEnd = ct.desc.h+sizeofHeader+ct.desc.nrAreasMax*sizeofDesc := by
      rw [Container.lastEnd, if_neg hn, hi.data_eq]
    obtain ⟨k, hk⟩ := hi.aligned
    exact ⟨by omega, fun i hin => by omega⟩

theorem Container.hasName_eq_false {name : Str} :
    ct.hasName name = false ↔
      ∀ i < ct.nrAreas, strncmp (ct.c i).name.chars name.chars 0 32 ≠ 0 := by
  simp [Container.hasName]

/-- An accepted request keeps the invariant. -/
theorem Container.Inv.push (hi : ct.Inv) {x : Desc} (hmax : ct.nrAreas < ct.desc.nrAreasMax)
    (hname : ct.hasName x.name = false) (halign : ct.lastEnd+32767 < 2^64) (hh : x.h = ct.nextH)
    (hend : ct.nextH+x.len < ct.diffLog0) (hlen : 32768 ∣ x.len) (hpos : 0 < x.len) :
    Container.Inv
      { ct with nrAreas := ct.nrAreas+1, c := Function.update ct.c ct.nrAreas x } := by
  obtain ⟨hstart, hafter⟩ := hi.nextH_spec halign
  have hname' := Container.hasName_eq_false.mp hname
  have hnextdvd : 32768 ∣ ct.nextH := dvd_tasvirAlign _
  -- the new index is the old count, every other index is untouched
  have hold (i : ℕ) (h : i < ct.nrAreas) : Function.update ct.c ct.nrAreas x i = ct.c i :=
    Function.update_of_ne h.ne _ _
  have hchild {P : Desc → Prop} (hx : P x) (hc : ∀ i < ct.nrAreas, P (ct.c i)) (i : ℕ)
      (hin : i < ct.nrAreas+1) : P (Function.update ct.c ct.nrAreas x i) := by
    rcases Nat.lt_succ_iff_lt_or_eq.mp hin with h | rfl
    · rw [hold i h]
      exact hc i h
    · rwa [Function.update_self]
  have hpair {Q : Desc → Desc → Prop} (hx : ∀ i < ct.nrAreas, Q (ct.c i) x)
      (hc : ∀ i j, i < j → j < ct.nrAreas → Q (ct.c i) (ct.c j)) (i j : ℕ) (hij : i < j)
      (hjn : j < ct.nrAreas+1) :
      Q (Function.update ct.c ct.nrAreas x i) (Function.update ct.c ct.nrAreas x j) := by
    rw [hold i (by omega)]
    rcases Nat.lt_succ_iff_lt_or_eq.mp hjn with h | rfl
    · rw [hold j h]
      exact hc i j hij h
    · rw [Function.update_self]
      exact hx i hij
  exact
  { hi with
    count := hmax
    child_aligned := hchild (P := fun c => 32768 ∣ c.h ∧ 32768 ∣ c.len)
      ⟨by rw [hh]; exact hnextdvd, hlen⟩ hi.child_aligned
    child_pos := hchild (P := fun c => 0 < c.len) hpos hi.child_pos
    child_start := hchild (P := fun c => ct.desc.h+ct.desc.offsetLogEnd ≤ c.h)
      (by rw [hh]; exact hstart) hi.child_start
    child_end := hchild (P := fun c => c.h+c.len < ct.diffLog0) (by rw [hh]; exact hend)
      hi.child_end
    order := hpair (Q := fun c c' => c.h+c.len ≤ c'.h) (by rw [hh]; exact hafter) hi.order
    names := hpair (Q := fun c c' => strncmp c.name.chars c'.name.chars 0 32 ≠ 0) hname'
      hi.names }

/-- `tasvir_new` leaves a container that satisfies the invariant. -/
theorem Container.created_inv (d : ℕ) (desc x : Desc) (hs : desc.Small)
    (htype : desc.type = .container) (hd : d ≠ 0) (hpos : 0 < x.h) (hdvd : 32768 ∣ x.h)
    (hend : x.offsetLogEnd = (spaceRequirements desc).offsetLogEnd)
    (hmax : x.nrAreasMax = desc.nrAreasMax) (hxt : x.type = desc.type)
    (hfit : x.h+(spaceRequirements desc).len < 2^64) :
    (Container.created d (spaceRequirements desc).offsetLog x).Inv := by
  obtain ⟨hlogEnd, hoff, hlen, -⟩ := spaceRequirements_spec desc hs
  rw [if_pos htype] at hlogEnd
  constructor <;> simp only [Container.created]
  case type => rw [hxt, htype]
  case h_pos => exact hpos
  case d_ne => exact hd
  case aligned => exact hdvd
  case metadata => simpa only [hend, hmax, Nat.add_zero] using hlogEnd
  case room => rw [hmax]; omega
  all_goals omega

end

/-- Every container of the tree satisfies its invariant, and a nested one has the
descriptor that its parent holds. -/
structure TreeInv (s : AreaTree) : Prop where
  inv : ∀ path ct, s.areas path = some ct → ct.Inv
  parent : ∀ path i ct, s.areas (path++[i]) = some ct →
    ∃ pt, s.areas path = some pt ∧ i < pt.nrAreas ∧ ct.desc = pt.c i

/-- A rejected call changes nothing; an accepted one adds a descriptor and, for a
container, a fresh container below it. -/
theorem AreaTree.tasvirNew_cases (s : AreaTree) (a : NewCall) (ct : Container)
    (hct : s.areas a.path = some ct) :
    s.tasvirNew a = s ∨
    ∃ (x : Desc) (log : Words), ct.nrAreas < ct.desc.nrAreasMax ∧ ct.hasName x.name = false ∧
      u64 (ct.nextH+x.len) < ct.diffLog0 ∧ x.h = ct.nextH ∧
      x.len = (spaceRequirements (withDefaults a.env a.desc)).len ∧
      x.offsetLogEnd = (spaceRequirements (withDefaults a.env a.desc)).offsetLogEnd ∧
      x.nrAreasMax = a.desc.nrAreasMax ∧ x.type = (withDefaults a.env a.desc).type ∧
      s.tasvirNew a = AreaTree.mk log
        (let areas := Function.update s.areas a.path
          (some { ct with nrAreas := ct.nrAreas+1, c := Function.update ct.c ct.nrAreas x })
        if x.type = .container then
          Function.update areas (a.path++[ct.nrAreas])
            (some (.created (u64 (ct.data+ct.nrAreas*sizeofDesc))
              (spaceRequirements (withDefaults a.env a.desc)).offsetLog x))
        else areas) := by
  unfold AreaTree.tasvirNew
  rw [hct]
  rcases ct.alloc_cases a.env s.log (newDesc a.env a.desc) with
    hr | ⟨log', x, hr, hmax, hname, hspace, hh, hlen, hend, hnr, hn, ht⟩
  · left
    simp only [hr]
    rw [← hct, Function.update_eq_self]
  · right
    refine ⟨x, tasvirLog log' (u64 (x.h+offD)) (sizeofHeader-offD), hmax, by rw [hn]; exact hname,
      by rw [hlen]; exact hspace, hh, hlen, hend, hnr, ht, ?_⟩
    simp only [hr, Function.update_self]

theorem TreeInv.tasvirNew {s : AreaTree} (hi : TreeInv s) (a : NewCall)
    (hp : containerSystem.pre s a) : TreeInv (s.tasvirNew a) := by
  obtain ⟨ct, hct, hsmall, halign, hplace⟩ := hp
  have hci := hi.inv _ _ hct
  rcases s.tasvirNew_cases a ct hct with
    hr | ⟨x, log, hmax, hname, hspace, hh, hlen, hend, hnr, ht, hr⟩
  · rw [hr]
    exact hi
  · obtain ⟨-, hoff, hle, hdvd⟩ := spaceRequirements_spec _ hsmall
    have hpos : 0 < (spaceRequirements (withDefaults a.env a.desc)).len := by
      unfold sizeofHeader at hoff
      omega
    rw [u64, Nat.mod_eq_of_lt (by rw [hlen]; exact hplace)] at hspace
    have hpush := hci.push hmax hname halign hh hspace (by rw [hlen]; exact hdvd)
      (by rw [hlen]; exact hpos)
    have hroom := hci.room
    have hnext := (hci.nextH_spec halign).1
    have hmeta := hci.h_pos
    have hd : u64 (ct.data+ct.nrAreas*sizeofDesc) ≠ 0 := by
      have hle := Nat.mul_le_mul_right sizeofDesc hmax.le
      rw [hci.data_eq, u64, Nat.mod_eq_of_lt (by omega)]
      omega
    have hself : a.path ≠ a.path++[ct.nrAreas] := by simp
    rw [hr]
    constructor
    case inv =>
      intro path ct' h
      by_cases htc : x.type = .container
      · have hchild := Container.created_inv (u64 (ct.data+ct.nrAreas*sizeofDesc)) _ x hsmall
          (by rw [← ht]; exact htc) hd (by omega) (by rw [hh]; exact dvd_tasvirAlign _) hend hnr ht
          (by rw [hh]; exact hplace)
        simp only [htc, ↓reduceIte, Function.update_apply] at h
        grind [TreeInv]
      · simp only [htc, ↓reduceIte, Function.update_apply] at h
        grind [TreeInv]
    case parent =>
      intro path i ct' h
      have happ : path++[i] = a.path++[ct.nrAreas] ↔ path = a.path ∧ i = ct.nrAreas := by
        constructor
        · intro he
          simpa using List.append_inj' he rfl
        · rintro ⟨rfl, rfl⟩
          rfl
      have hne : path ≠ path++[i] := by simp
      -- the slot of the new child was empty before, since its index is not below the count
      have hempty : ∀ pt, s.areas (a.path++[ct.nrAreas]) ≠ some pt := by
        intro pt he
        obtain ⟨pt', hpt, hlt, -⟩ := hi.parent _ _ _ he
        rw [hct] at hpt
        cases hpt
        omega
      by_cases htc : x.type = .container
      · simp only [htc, ↓reduceIte, Function.update_apply] at h ⊢
        grind [TreeInv, Container.created]
      · simp only [htc, ↓reduceIte, Function.update_apply] at h ⊢
        grind [TreeInv]

theorem Container.Fresh.inv {ct : Container} (hf : ct.Fresh) : ct.Inv := by
  obtain ⟨env, desc, d, x, hs, htype, hd, hx, hx64, hfit, rfl⟩ := hf
  have ht : (withDefaults env desc).type = .container := by simp [withDefaults, htype]
  have hpos : 0 < tasvirAlign x := by
    rw [tasvirAlign_eq x hx64]
    omega
  exact Container.created_inv d _ { newDesc env desc with h := tasvirAlign x } hs ht hd hpos
    (dvd_tasvirAlign x) rfl rfl rfl hfit

theorem treeInv_reachable {s : AreaTree} (h : containerSystem.Reachable s) : TreeInv s := by
  apply h.invariant
  · rintro s ⟨ct, hf, hs⟩
    constructor
    · intro path ct' hct
      have hinv := hf.inv
      simp only [hs, Function.update_apply] at hct
      grind
    · intro path i ct' hct
      simp [hs] at hct
  · intro s a hi hp
    exact hi.tasvirNew a hp

theorem Container.Inv.names_ne {ct : Container} (hi : ct.Inv) {i j : ℕ} (hin : i < ct.nrAreas)
    (hjn : j < ct.nrAreas) (hij : i ≠ j) :
    strncmp (ct.c i).name.chars (ct.c j).name.chars 0 32 ≠ 0 := by
  rcases Nat.lt_or_gt_of_ne hij with h | h
  · exact hi.names i j h hjn
  · rw [strncmp_comm]
    simpa using hi.names j i h hin

/-- Looking up the name of a child finds that child. -/
theorem Container.Inv.getByName {ct : Container} (hi : ct.Inv) {i : ℕ} (hin : i < ct.nrAreas) :
    tasvirAreaGetByName (some ct) (ct.c i).name.chars = some (.child i) := by
  have hguard : ct.desc.type = .container ∧ ct.desc.h ≠ 0 ∧ ct.d ≠ 0 :=
    ⟨hi.type, hi.h_pos.ne', hi.d_ne⟩
  simp only [tasvirAreaGetByName, hguard, ne_eq, not_false_eq_true, and_self, ↓reduceIte,
    Option.map_eq_some_iff, FoundArea.child.injEq, exists_eq_right]
  rw [List.find?_range_eq_some]
  refine ⟨by simp [strncmp_self], List.mem_range.mpr hin, ?_⟩
  intro j hj
  simpa using hi.names_ne (hj.trans hin) hin hj.ne

/-- The bytes of a child, header and log included. -/
def Desc.extent (d : Desc) : Set ℕ := Set.Ico d.h (d.h+d.len)

/-- Allocation in every container of the tree, at all times: the count, the
placement and the names of the children, and the effect of a further request. -/
theorem container_allocation (s : AreaTree) (h : containerSystem.Reachable s) (path : List ℕ)
    (ct : Container) (hct : s.areas path = some ct) :
    ct.nrAreas ≤ ct.desc.nrAreasMax ∧
    (∀ i < ct.nrAreas, alignment ∣ (ct.c i).h ∧ alignment ∣ (ct.c i).h+(ct.c i).len ∧
      ct.desc.h+ct.desc.offsetLogEnd ≤ (ct.c i).h ∧ (ct.c i).h+(ct.c i).len < ct.diffLog0) ∧
    (∀ i j, i < j → j < ct.nrAreas → (ct.c i).h < (ct.c j).h ∧
      Disjoint (ct.c i).extent (ct.c j).extent) ∧
    (∀ i < ct.nrAreas, ∀ j < ct.nrAreas, i ≠ j →
      strncmp (ct.c i).name.chars (ct.c j).name.chars 0 32 ≠ 0) ∧
    (∀ i < ct.nrAreas, tasvirAreaGetByName (some ct) (ct.c i).name.chars = some (.child i)) ∧
    (∀ env desc, (ct.tasvirNewAllocDesc env s.log (newDesc env desc)).2.2 = none →
      ct.tasvirNewAllocDesc env s.log (newDesc env desc) = (s.log, ct, none) ∧
      s.tasvirNew { path, env, desc } = s) ∧
    (∀ env desc i, (ct.tasvirNewAllocDesc env s.log (newDesc env desc)).2.2 = some i →
      ∀ k < ct.nrAreas, (ct.tasvirNewAllocDesc env s.log (newDesc env desc)).2.1.c k = ct.c k) := by
  have hi := (treeInv_reachable h).inv path ct hct
  refine ⟨hi.count, ?_, ?_, ?_, ?_, ?_, ?_⟩
  · intro i hin
    obtain ⟨hh, hl⟩ := hi.child_aligned i hin
    exact ⟨hh, dvd_add hh hl, hi.child_start i hin, hi.child_end i hin⟩
  · intro i j hij hjn
    have hord := hi.order i j hij hjn
    have hpos := hi.child_pos i (hij.trans hjn)
    -- the earlier child ends where the later one begins, or before
    refine ⟨by omega, ?_⟩
    apply Set.disjoint_left.mpr
    intro x hx hy
    exact absurd (lt_of_lt_of_le hx.2 hord) (not_lt.mpr hy.1)
  · intro i hin j hjn hij
    exact hi.names_ne hin hjn hij
  · intro i hin
    exact hi.getByName hin
  · intro env desc hr
    rcases ct.alloc_cases env s.log (newDesc env desc) with hc | ⟨log', x, hc, -⟩
    · refine ⟨hc, ?_⟩
      simp only [AreaTree.tasvirNew, hct, hc]
      rw [← hct, Function.update_eq_self]
    · rw [hc] at hr
      cases hr
  · intro env desc i hr k hk
    rcases ct.alloc_cases env s.log (newDesc env desc) with hc | ⟨log', x, hc, -⟩
    · rw [hc] at hr
      cases hr
    · rw [hc]
      exact Function.update_of_ne (by omega) _ _

def exampleEnv : AllocEnv where
  thread := 1
  rootDesc := 2^40
  nodeSyncExtUs := none
  timeUs := 0

/-- A container of a megabyte with room for four children, at the start of the data region. -/
def exampleRoot : Container :=
  let desc : Desc := { len := 2^20, nrAreasMax := 4, type := .container }
  .created (2^40) (spaceRequirements (withDefaults exampleEnv desc)).offsetLog
    { newDesc exampleEnv desc with h := tasvirAlign (2^40+sizeofDesc) }

def exampleCalls : List NewCall :=
  [{ path := [], env := exampleEnv
     desc := { len := 2^18, nrAreasMax := 2, name := Vector.replicate 32 97, type := .container } },
   { path := [0], env := exampleEnv, desc := { len := 100, name := Vector.replicate 32 98 } },
   { path := [0], env := exampleEnv, desc := { len := 40000, name := Vector.replicate 32 99 } }]

theorem exampleRoot_fresh : exampleRoot.Fresh := by
  refine ⟨exampleEnv, { len := 2^20, nrAreasMax := 4, type := .container }, 2^40, 2^40+sizeofDesc,
    ⟨?_, ?_⟩, rfl, ?_, ?_, ?_, ?_, rfl⟩ <;> decide +kernel

/-- The two areas lie apart in the nested container, and each is found under its own name. -/
theorem container_allocation_nested :
    ∃ s ct, containerSystem.Reachable s ∧ s.areas [0] = some ct ∧ ct.nrAreas = 2 ∧
      ct.desc.h+ct.desc.offsetLogEnd ≤ (ct.c 0).h ∧ (ct.c 1).h+(ct.c 1).len < ct.diffLog0 ∧
      Disjoint (ct.c 0).extent (ct.c 1).extent ∧
      strncmp (ct.c 0).name.chars (ct.c 1).name.chars 0 32 ≠ 0 ∧
      tasvirAreaGetByName (some ct) (ct.c 1).name.chars = some (.child 1) := by
  have h0 : containerSystem.Reachable
      ⟨fun _ => 0, Function.update (fun _ => none) [] (some exampleRoot)⟩ :=
    .init ⟨exampleRoot, exampleRoot_fresh, rfl⟩
  have h3 := h0.run exampleCalls
    ⟨⟨_, rfl, ⟨by decide +kernel, by decide +kernel⟩, ⟨by decide +kernel, by decide +kernel⟩⟩,
      ⟨_, rfl, ⟨by decide +kernel, by decide +kernel⟩, ⟨by decide +kernel, by decide +kernel⟩⟩,
      ⟨_, rfl, ⟨by decide +kernel, by decide +kernel⟩, ⟨by decide +kernel, by decide +kernel⟩⟩,
      trivial⟩
  obtain ⟨-, hplace, hapart, hnames, hfound, -, -⟩ := container_allocation _ h3 [0] _ rfl
  exact ⟨_, _, h3, rfl, by decide +kernel, (hplace 0 (by decide +kernel)).2.2.1,
    (hplace 1 (by decide +kernel)).2.2.2, (hapart 0 1 (by decide) (by decide +kernel)).2,
    hnames 0 (by decide +kernel) 1 (by decide +kernel) (by decide),
    hfound 1 (by decide +kernel)⟩

end Tasvir
