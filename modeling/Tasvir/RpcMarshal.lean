import Mathlib.Tactic
import Tasvir.Container

/-! Marshalling of an RPC: `tasvir_rpc_fn_register` lays out the return value and the arguments in
the message, `tasvir_vrpc` stores the arguments there, and the functions that
TASVIR_RPCFN_DEFINE generates read them and write the result. -/
namespace Tasvir

/-- `data` of a `tasvir_msg_rpc`. -/
abbrev MsgData := ℕ → UInt8

/-- Offset of `data` in the packet, which starts at `h.eh`. -/
def offData : ℕ := 88

/-- The address of `data` in its mbuf: behind `rte_mbuf`, RTE_PKTMBUF_HEADROOM and the headers.
The mbufs of a pool are aligned to 64. -/
def addrMsgData : ℕ := 128+128+offData

/-- Bytes of `data` in an mbuf of RTE_MBUF_DEFAULT_BUF_SIZE; what comes next belongs to another
message. -/
def dataRoom : ℕ := 1960

/-- TASVIR_ALIGN_ARG. -/
def alignArg (x : ℕ) : ℕ := alignx x 8

/-- Rounded up to eightbytes. -/
def roundArg (n : ℕ) : ℕ := (n+7)/8*8

/-- The type of an argument, an integer, a pointer or a struct. `unaligned` is set for a packed
struct with a member that is not aligned. No type has size 0. -/
structure ArgType where
  size : ℕ
  align : ℕ
  unaligned : Bool
  size_pos : 0 < size
  align_dvd : align ∣ 16

/-- A `va_list`: `gp_offset`, and `overflow_arg_area` from the start of that area, which is
aligned to 16. -/
structure VaList where
  gpOffset : ℕ
  overflowArgArea : ℕ

/-- A place in the register save area or in the overflow area. -/
inductive ArgPlace
  | reg (offset : ℕ)
  | stack (offset : ℕ)
deriving DecidableEq, Repr

/-- The next argument, as the caller places it and as `va_arg` finds it: two eightbytes at most go
into registers, both or none, and what needs more than 8 is aligned on the stack. -/
def VaList.next (v : VaList) (size align : ℕ) (inMemory : Bool) : ArgPlace × VaList :=
  if inMemory = false ∧ size ≤ 16 ∧ v.gpOffset+roundArg size ≤ 48 then
    (.reg v.gpOffset, { v with gpOffset := v.gpOffset+roundArg size })
  else
    let a := max 8 align
    let p := (v.overflowArgArea+(a-1))/a*a
    (.stack p, { v with overflowArgArea := p+roundArg size })

/-- The bytes that a caller passes. -/
structure ArgArea where
  regSave : MsgData
  overflow : MsgData

def ArgArea.bytes (m : ArgArea) : ArgPlace → MsgData
  | .reg p => fun j => m.regSave (p+j)
  | .stack p => fun j => m.overflow (p+j)

/-- An argument with the bytes where the caller has put it and those where `va_arg` looks; `found`
says that it is the same place. -/
structure VarArg where
  type : ArgType
  passed : MsgData
  image : MsgData
  found : Bool

abbrev VarArg.size (a : VarArg) : ℕ := a.type.size

def VarArg.value (a : VarArg) : List UInt8 := (List.range a.size).map a.passed

/-- The cases of the switch in `tasvir_vrpc`; the last two are `sizeof(tasvir_str_static)` and
`sizeof(tasvir_area_desc)`. -/
def argCases : List ℕ := [8, 16, 12, 64, 320, 512, 32, sizeofDesc]

/-- Size and alignment of the type that `tasvir_vrpc` gives to `va_arg`: `__uint128_t` for 16
bytes, types aligned to 8 at most for the other cases, int for the rest. -/
def vaArgType (size : ℕ) : ℕ × ℕ :=
  if size ∈ argCases then (size, if size = 16 then 16 else 8) else (4, 4)

/-- The arguments, placed by their types and looked for by their sizes. -/
def passArgs (area : ArgArea) : VaList → VaList → List ArgType → List VarArg
  | _, _, [] => []
  | v, w, t :: ts =>
    let (p, v) := v.next t.size t.align t.unaligned
    let (q, w) := w.next (vaArgType t.size).1 (vaArgType t.size).2 false
    ⟨t, area.bytes p, area.bytes q, p = q⟩ :: passArgs area v w ts

/-- A call of a registered function. `named` are the registers that the parameters in front of the
variable ones take: two in `tasvir_rpc`, four in `tasvir_rpc_wait`. -/
structure RpcCall where
  retSize : ℕ
  retAlign : ℕ
  types : List ArgType
  named : ℕ
  area : ArgArea
  argc_le : types.length ≤ 6
  ret_dvd : retAlign ∣ 16

def RpcCall.args (c : RpcCall) : List VarArg :=
  passArgs c.area ⟨8*c.named, 0⟩ ⟨8*c.named, 0⟩ c.types

/-- `va_arg(argp, int)` as `tasvir_arg_promo_t`: four bytes with their sign extended. -/
def promote (image : MsgData) : MsgData :=
  fun j => if j < 4 then image j else if 128 ≤ image 3 then 255 else 0

def storeBytes (data : MsgData) (ptr n : ℕ) (src : MsgData) : MsgData :=
  fun j => if ptr ≤ j ∧ j < ptr+n then src (j-ptr) else data j

def readBytes (data : MsgData) (ptr n : ℕ) : List UInt8 :=
  (List.range n).map fun j => data (ptr+j)

/-- How a store can fail. -/
inductive StoreFault
  | abort
  /-- a `__uint128_t` at an address that is not a multiple of 16 -/
  | undefined
deriving DecidableEq

/-- One round of the loop of `tasvir_vrpc`. -/
def storeArg (data : MsgData) (ptr : ℕ) (a : VarArg) : Except StoreFault MsgData :=
  if a.size ∈ argCases then
    if a.size = 16 ∧ (addrMsgData+ptr)%16 ≠ 0 then .error .undefined
    else .ok (storeBytes data ptr a.size a.image)
  else if a.size ≤ 8 then .ok (storeBytes data ptr 8 (promote a.image))
  else .error .abort

/-- The loop of `tasvir_rpc_fn_register`. -/
def argOffsets : ℕ → List VarArg → List ℕ
  | _, [] => []
  | ptr, a :: as => ptr :: argOffsets (u64 (ptr+alignArg a.size)) as

namespace RpcCall
variable (c : RpcCall)

/-- `ret_len` is an int; where it is used it is converted to a `size_t`. -/
def retLen : ℕ :=
  if c.retSize%2^32 < 2^31 then c.retSize%2^32 else 2^64-2^32+c.retSize%2^32

def offsets : List ℕ := argOffsets (alignArg c.retLen) c.args

/-- `tasvir_vrpc` up to the length of the packet, in a message that holds anything. -/
def tasvirVrpc (data : MsgData) : Except StoreFault MsgData :=
  (c.offsets.zip c.args).foldlM (fun data x => storeArg data x.1 x.2) data

/-- `pkt_len`, which goes through the 16 bits of `data_len`. -/
def pktLen : ℕ :=
  alignArg (u64 (((c.args.getLast?.map VarArg.size).getD 0)+
    (offData+c.offsets.getLast?.getD (alignArg c.retLen))))%2^16

/-- The regions of the return value and of the arguments. -/
def regions : List (ℕ × ℕ) := (0, c.retSize) :: c.offsets.zip (c.args.map VarArg.size)

/-- TASVIR_F_ARGVAL for each argument. -/
def readArgs (data : MsgData) : List (List UInt8) :=
  (c.offsets.zip c.args).map fun x => readBytes data x.1 x.2.size

/-- A message arrives with its declared packet, as far as it lies in its buffer. -/
def Delivered (sent recv : MsgData) : Prop :=
  ∀ j, offData+j < c.pktLen → j < dataRoom → recv j = sent j

/-- What a call needs of its message. -/
structure RoundTrip (data : MsgData) : Prop where
  disjoint : c.regions.Pairwise fun x y => x.1+x.2 ≤ y.1 ∨ y.1+y.2 ≤ x.1
  inside : ∀ x ∈ c.regions, offData+x.1+x.2 ≤ c.pktLen
  /-- the generated function reads and writes through pointers that are aligned -/
  aligned : c.retAlign ∣ addrMsgData ∧
    ∀ x ∈ c.offsets.zip c.args, x.2.type.align ∣ addrMsgData+x.1
  args : ∀ recv, c.Delivered data recv → c.readArgs recv = c.args.map VarArg.value
  ret : ∀ recv, c.Delivered data recv → ∀ f : List (List UInt8) → Vector UInt8 c.retSize,
    ∀ resp, c.Delivered (storeBytes recv 0 c.retSize fun j => (f (c.readArgs recv)).toList.getD j 0)
      resp → readBytes resp 0 c.retLen = (f (c.readArgs recv)).toList

end RpcCall

/-- The space that the arguments take. -/
def argsSize (as : List VarArg) : ℕ := (as.map fun a => roundArg a.size).sum

/-- The return value and the arguments fit in the buffer of the message. -/
def RpcCall.Fits (c : RpcCall) : Prop := roundArg c.retSize+argsSize c.args ≤ dataRoom

/-- What is stored of an argument. -/
def VarArg.stored (a : VarArg) : MsgData :=
  if a.size ∈ argCases then a.image else promote a.image

/-- `va_arg` looks where the argument is, and the value is not of five to seven bytes or its bytes
from the fifth on extend the sign of the fourth; or it looks elsewhere and finds the same bytes. -/
def VarArg.Exact (a : VarArg) : Prop :=
  if a.found then 4 < a.size → a.size < 8 → ∀ j, 4 ≤ j → j < a.size → a.passed j = promote a.passed j
  else ∀ j < a.size, a.stored j = a.passed j

/-- What an argument needs of its address in the message. -/
def ArgType.msgAlign (t : ArgType) : ℕ := if t.size = 16 then 16 else t.align

/-- The arguments from address `p` on have what they need. -/
def AlignedFrom : ℕ → List VarArg → Prop
  | _, [] => True
  | p, a :: as => a.type.msgAlign ∣ p ∧ AlignedFrom (p+roundArg a.size) as

def RpcCall.Aligned (c : RpcCall) : Prop :=
  c.retAlign ∣ addrMsgData ∧ AlignedFrom (addrMsgData+roundArg c.retSize) c.args

theorem le_roundArg (n : ℕ) : n ≤ roundArg n := by
  unfold roundArg
  omega

theorem argsSize_cons (a : VarArg) (as : List VarArg) :
    argsSize (a :: as) = roundArg a.size+argsSize as := by
  simp [argsSize]

theorem alignArg_eq {n : ℕ} (h : n+7 < 2^64) : alignArg n = roundArg n := alignx_eight n h

theorem readBytes_eq_iff {data image : MsgData} {ptr n : ℕ} :
    readBytes data ptr n = (List.range n).map image ↔ ∀ j < n, data (ptr+j) = image j := by
  simp [readBytes, List.map_inj_left]

/-- The sizes for which `tasvir_vrpc` does not abort. -/
def VarArg.Supported (a : VarArg) : Prop := a.size ∈ argCases ∨ a.size ≤ 8

theorem VarArg.Supported.size_le {a : VarArg} (h : a.Supported) : a.size ≤ 512 := by
  rcases h with hmem | hle
  · simp only [argCases, sizeofDesc, List.mem_cons, List.not_mem_nil, or_false] at hmem
    omega
  · omega

/-- An argument that is stored takes no more than its rounded size. -/
theorem storeArg_spec {data data' : MsgData} {ptr : ℕ} {a : VarArg}
    (h : storeArg data ptr a = .ok data') :
    a.Supported ∧ (a.size = 16 → 16 ∣ addrMsgData+ptr) ∧ (∀ j < a.size, data' (ptr+j) = a.stored j) ∧
    ∀ j, j < ptr ∨ ptr+roundArg a.size ≤ j → data' j = data j := by
  have hpos : 0 < a.size := a.type.size_pos
  unfold storeArg at h
  unfold roundArg
  split at h
  case isTrue hmem =>
    split at h
    case isTrue => cases h
    case isFalse hdef =>
      cases h
      refine ⟨.inl hmem, fun h16 => by omega, ?_, ?_⟩
      · intro j hj
        simp only [storeBytes, VarArg.stored, hmem, ↓reduceIte]
        rw [if_pos (by omega), Nat.add_sub_cancel_left]
      · intro j hj
        exact if_neg (by omega)
  case isFalse hmem =>
    split at h
    case isTrue hle =>
      cases h
      refine ⟨.inr hle, fun h16 => by omega, ?_, ?_⟩
      · intro j hj
        simp only [storeBytes, VarArg.stored, hmem, ↓reduceIte]
        rw [if_pos (by omega), Nat.add_sub_cancel_left]
      · intro j hj
        exact if_neg (by omega)
    case isFalse => cases h

/-- Of the supported sizes only five, six and seven lose bytes that were found. -/
theorem VarArg.Supported.exact_iff {a : VarArg} (h : a.Supported)
    (hfound : a.found → a.passed = a.image) :
    a.Exact ↔ ∀ j < a.size, a.stored j = a.passed j := by
  unfold VarArg.Exact
  by_cases hf : a.found = true
  · rw [if_pos hf, hfound hf]
    unfold VarArg.stored
    by_cases hmem : a.size ∈ argCases
    · simp only [hmem, ↓reduceIte, implies_true, iff_true]
      intro h4 h8
      simp only [argCases, sizeofDesc, List.mem_cons, List.not_mem_nil, or_false] at hmem
      omega
    · have hle : a.size ≤ 8 := h.resolve_left hmem
      have hne : a.size ≠ 8 := by
        intro h8
        rw [h8] at hmem
        exact hmem (by decide)
      simp only [hmem, ↓reduceIte]
      constructor
      · intro he j hj
        by_cases hj4 : j < 4
        · exact if_pos hj4
        · exact (he (by omega) (by omega) j (by omega) hj).symm
      · intro he h4 h8 j hj4 hj
        exact (he j hj).symm
  · rw [if_neg hf]

/-- Where it is found, an argument is what the caller has passed. -/
theorem found_passArgs {area : ArgArea} {v w : VaList} {ts : List ArgType} {a : VarArg}
    (ha : a ∈ passArgs area v w ts) (hf : a.found) : a.passed = a.image := by
  induction ts generalizing v w with
  | nil => exact absurd ha List.not_mem_nil
  | cons t ts ih =>
    rw [passArgs] at ha
    rcases List.mem_cons.mp ha with rfl | ha
    · exact congrArg area.bytes (of_decide_eq_true hf)
    · exact ih ha

theorem map_type_passArgs (area : ArgArea) (v w : VaList) (ts : List ArgType) :
    (passArgs area v w ts).map VarArg.type = ts := by
  induction ts generalizing v w with
  | nil => rfl
  | cons t ts ih => rw [passArgs, List.map_cons, ih]

/-- Where the types aligned to 16 are those of 16 bytes, and none is packed, `va_arg` looks where
the arguments are. -/
theorem found_of_plain (area : ArgArea) (v : VaList) (ts : List ArgType)
    (h : ∀ t ∈ ts, t.unaligned = false ∧ (t.size = 16 ↔ 8 < t.align) ∧
      (t.size ∈ argCases ∨ t.size ≤ 8)) :
    ∀ a ∈ passArgs area v v ts, a.found := by
  induction ts generalizing v with
  | nil => intro a ha; exact absurd ha List.not_mem_nil
  | cons t ts ih =>
    obtain ⟨hun, halign, hsupp⟩ := h t List.mem_cons_self
    -- the caller and `va_arg` agree on the size in eightbytes and on what exceeds 8 in alignment
    have hnext : v.next (vaArgType t.size).1 (vaArgType t.size).2 false =
        v.next t.size t.align t.unaligned := by
      have hpos := t.size_pos
      have hdvd := Nat.le_of_dvd (by norm_num) t.align_dvd
      have h16 : t.size = 16 → t.align = 16 := by
        intro h16
        obtain ⟨c, hc⟩ := t.align_dvd
        have := halign.mp h16
        have hc1 : c < 2 := by
          by_contra hc2
          have := Nat.mul_le_mul_left t.align (not_lt.mp hc2)
          omega
        interval_cases c <;> omega
      have hmax : max 8 (vaArgType t.size).2 = max 8 t.align := by
        unfold vaArgType
        by_cases h16' : t.size = 16
        · simp [h16', h16 h16', argCases]
        · have := mt halign.mpr h16'
          split <;> simp only <;> omega
      have hround : roundArg (vaArgType t.size).1 = roundArg t.size := by
        unfold vaArgType roundArg
        split
        next => rfl
        next hmem =>
          have hle := hsupp.resolve_left hmem
          simp only
          omega
      have hsmall : (vaArgType t.size).1 ≤ 16 ↔ t.size ≤ 16 := by
        unfold vaArgType
        split
        next => rfl
        next hmem =>
          have hle := hsupp.resolve_left hmem
          simp only
          omega
      simp only [VaList.next, hun, hmax, hround, hsmall]
    intro a ha
    rw [passArgs, hnext] at ha
    rcases List.mem_cons.mp ha with rfl | ha
    · exact decide_eq_true rfl
    · exact ih _ (fun t ht => h t (List.mem_cons_of_mem _ ht)) a ha

/-- The arguments are placed one after the other from `ptr` on. -/
theorem argOffsets_cons {ptr : ℕ} {a : VarArg} {as : List VarArg} (hle : a.size ≤ dataRoom)
    (hptr : ptr+dataRoom < 2^63) :
    argOffsets ptr (a :: as) = ptr :: argOffsets (ptr+roundArg a.size) as := by
  have hround : alignArg a.size = roundArg a.size := alignArg_eq (by omega)
  have hsum : u64 (ptr+roundArg a.size) = ptr+roundArg a.size := by
    apply Nat.mod_eq_of_lt
    unfold roundArg
    omega
  rw [argOffsets, hround, hsum]

theorem dvd_argsSize (as : List VarArg) : 8 ∣ argsSize as := by
  apply List.dvd_sum
  intro x hx
  obtain ⟨a, -, rfl⟩ := List.mem_map.mp hx
  exact dvd_mul_left _ _

theorem length_argOffsets (as : List VarArg) (ptr : ℕ) : (argOffsets ptr as).length = as.length := by
  induction as generalizing ptr with
  | nil => rfl
  | cons a as ih => rw [argOffsets, List.length_cons, List.length_cons, ih]

/-- Where the arguments lie: in order, without overlap, and up to the size of all. -/
theorem argOffsets_spec {as : List VarArg} (ptr : ℕ) (hle : ∀ a ∈ as, a.size ≤ dataRoom)
    (hptr : ptr+argsSize as+dataRoom < 2^63) :
    (∀ x ∈ (argOffsets ptr as).zip as, ptr ≤ x.1 ∧ x.1+x.2.size ≤ ptr+argsSize as) ∧
    ((argOffsets ptr as).zip as).Pairwise (fun x y => x.1+x.2.size ≤ y.1) := by
  induction as generalizing ptr with
  | nil => simp [argOffsets]
  | cons a as ih =>
    have hsum := argsSize_cons a as
    have hround := le_roundArg a.size
    rw [argOffsets_cons (hle a List.mem_cons_self) (by omega)]
    obtain ⟨hin, hpair⟩ := ih (ptr+roundArg a.size)
      (fun b hb => hle b (List.mem_cons_of_mem _ hb)) (by omega)
    refine ⟨?_, ?_⟩
    · intro x hx
      rcases List.mem_cons.mp hx with rfl | hx
      · simp only
        omega
      · have := hin x hx
        omega
    · rw [List.zip_cons_cons, List.pairwise_cons]
      refine ⟨?_, hpair⟩
      intro y hy
      have := (hin y hy).1
      simp only
      omega

/-- The last argument ends where the rounded sizes do. -/
theorem argOffsets_last {as : List VarArg} (ptr : ℕ) (hle : ∀ a ∈ as, a.size ≤ dataRoom)
    (hptr : ptr+argsSize as+dataRoom < 2^63) (hne : as ≠ []) :
    ∃ p a, (argOffsets ptr as).getLast? = some p ∧ as.getLast? = some a ∧
      (p, a) ∈ (argOffsets ptr as).zip as ∧ p+roundArg a.size = ptr+argsSize as := by
  induction as generalizing ptr with
  | nil => exact absurd rfl hne
  | cons a as ih =>
    have hsum := argsSize_cons a as
    rw [argOffsets_cons (hle a List.mem_cons_self) (by omega)]
    cases as with
    | nil => exact ⟨ptr, a, rfl, rfl, by simp [argOffsets], by simp [argsSize]⟩
    | cons b bs =>
      obtain ⟨p, x, hp, hx, hmem, hend⟩ := ih (ptr+roundArg a.size)
        (fun y hy => hle y (List.mem_cons_of_mem _ hy)) (by omega) (by simp)
      refine ⟨p, x, ?_, ?_, List.mem_cons_of_mem _ hmem, by omega⟩
      · rw [List.getLast?_cons_of_ne_nil, hp]
        simp [argOffsets]
      · rw [List.getLast?_cons_cons, hx]

theorem bind_ok {ε α β : Type} {x : Except ε α} {f : α → Except ε β} {b : β} (h : x >>= f = .ok b) :
    ∃ a, x = .ok a ∧ f a = .ok b := by
  cases x with
  | error e => cases h
  | ok a => exact ⟨a, rfl, h⟩

/-- After the loop of `tasvir_vrpc` every argument is stored at its offset. -/
theorem storeArgs_spec {as : List VarArg} {ptr : ℕ} {data data' : MsgData}
    (hle : ∀ a ∈ as, a.size ≤ dataRoom) (hptr : ptr+argsSize as+dataRoom < 2^63)
    (h : ((argOffsets ptr as).zip as).foldlM (fun data x => storeArg data x.1 x.2) data =
      .ok data') :
    (∀ x ∈ (argOffsets ptr as).zip as, ∀ j < x.2.size, data' (x.1+j) = x.2.stored j) ∧
    ∀ j < ptr, data' j = data j := by
  induction as generalizing ptr data with
  | nil =>
    simp only [argOffsets, List.zip_nil_left, List.foldlM_nil] at h
    cases h
    simp [argOffsets]
  | cons a as ih =>
    have hsum := argsSize_cons a as
    have hround := le_roundArg a.size
    rw [argOffsets_cons (hle a List.mem_cons_self) (by omega)] at h ⊢
    rw [List.zip_cons_cons, List.foldlM_cons] at h
    obtain ⟨data1, h1, h2⟩ := bind_ok h
    obtain ⟨-, -, hstored, hframe⟩ := storeArg_spec h1
    -- the later stores are behind this argument
    obtain ⟨hrest, hbelow⟩ := ih (fun b hb => hle b (List.mem_cons_of_mem _ hb)) (by omega) h2
    refine ⟨?_, ?_⟩
    · intro x hx j hj
      rcases List.mem_cons.mp hx with rfl | hx
      · simp only at hj ⊢
        rw [hbelow _ (by omega), hstored j hj]
      · exact hrest x hx j hj
    · intro j hj
      rw [hbelow j (by omega), hframe j (.inl hj)]

/-- A call that comes through has only supported arguments, and no store of 16 bytes is misaligned. -/
theorem supported_of_foldlM {xs : List (ℕ × VarArg)} {data data' : MsgData}
    (h : xs.foldlM (fun data x => storeArg data x.1 x.2) data = .ok data') :
    ∀ x ∈ xs, x.2.Supported ∧ (x.2.size = 16 → 16 ∣ addrMsgData+x.1) := by
  induction xs generalizing data with
  | nil => simp
  | cons x xs ih =>
    rw [List.foldlM_cons] at h
    obtain ⟨data1, h1, h2⟩ := bind_ok h
    intro y hy
    rcases List.mem_cons.mp hy with rfl | hy
    · obtain ⟨hsupp, halign, -⟩ := storeArg_spec h1
      exact ⟨hsupp, halign⟩
    · exact ih h2 y hy

/-- With all of them aligned, the loop ends or aborts. -/
theorem foldlM_ok_of_aligned {xs : List (ℕ × VarArg)} {data : MsgData}
    (h : xs.foldlM (fun data x => storeArg data x.1 x.2) data ≠ .error .abort)
    (halign : ∀ x ∈ xs, x.2.size = 16 → 16 ∣ addrMsgData+x.1) :
    ∃ data', xs.foldlM (fun data x => storeArg data x.1 x.2) data = .ok data' := by
  induction xs generalizing data with
  | nil => exact ⟨data, rfl⟩
  | cons x xs ih =>
    rw [List.foldlM_cons] at h ⊢
    cases hx : storeArg data x.1 x.2 with
    | ok data1 =>
      rw [hx] at h
      exact ih h fun y hy => halign y (List.mem_cons_of_mem _ hy)
    | error e =>
      cases e with
      | abort => rw [hx] at h; exact absurd rfl h
      | undefined =>
        have hdef := halign x List.mem_cons_self
        unfold storeArg at hx
        split at hx
        · split at hx
          next hodd => exact absurd (Nat.mod_eq_zero_of_dvd (hdef hodd.1)) hodd.2
          next => cases hx
        · split at hx <;> cases hx

/-- What `AlignedFrom` says about the offsets. -/
theorem alignedFrom_iff {as : List VarArg} {ptr : ℕ} (hle : ∀ a ∈ as, a.size ≤ dataRoom)
    (hptr : ptr+argsSize as+dataRoom < 2^63) :
    AlignedFrom (addrMsgData+ptr) as ↔
      ∀ x ∈ (argOffsets ptr as).zip as, x.2.type.msgAlign ∣ addrMsgData+x.1 := by
  induction as generalizing ptr with
  | nil => simp [AlignedFrom, argOffsets]
  | cons a as ih =>
    have hsum := argsSize_cons a as
    rw [argOffsets_cons (hle a List.mem_cons_self) (by omega), List.zip_cons_cons, List.forall_mem_cons,
      AlignedFrom, Nat.add_assoc, ih (fun b hb => hle b (List.mem_cons_of_mem _ hb)) (by omega)]

section
variable {c : RpcCall} {data data' : MsgData}

theorem RpcCall.length_args (c : RpcCall) : c.args.length ≤ 6 := by
  have hlen := congrArg List.length (map_type_passArgs c.area ⟨8*c.named, 0⟩ ⟨8*c.named, 0⟩ c.types)
  rw [List.length_map] at hlen
  rw [RpcCall.args, hlen]
  exact c.argc_le

theorem RpcCall.map_snd_zip (c : RpcCall) : (c.offsets.zip c.args).map Prod.snd = c.args :=
  List.map_snd_zip (length_argOffsets _ _).ge

theorem RpcCall.mem_zip {a : VarArg} (ha : a ∈ c.args) : ∃ p, (p, a) ∈ c.offsets.zip c.args := by
  rw [← c.map_snd_zip] at ha
  obtain ⟨x, hx, rfl⟩ := List.mem_map.mp ha
  exact ⟨x.1, hx⟩

theorem RpcCall.supported (h : c.tasvirVrpc data = .ok data') : ∀ a ∈ c.args, a.Supported := by
  intro a ha
  obtain ⟨p, hp⟩ := RpcCall.mem_zip ha
  exact (supported_of_foldlM h _ hp).1

/-- Six arguments of at most 512 bytes. -/
theorem RpcCall.argsSize_le (h : c.tasvirVrpc data = .ok data') : argsSize c.args ≤ 6*512 := by
  calc argsSize c.args ≤ (c.args.map fun a => roundArg a.size).length • 512 := by
        apply List.sum_le_card_nsmul
        intro x hx
        obtain ⟨a, ha, rfl⟩ := List.mem_map.mp hx
        have hle := (RpcCall.supported h a ha).size_le
        unfold roundArg
        omega
    _ ≤ 6*512 := by
        rw [List.length_map, smul_eq_mul]
        exact Nat.mul_le_mul_right 512 c.length_args

theorem RpcCall.retLen_eq (hr : c.retSize ≤ dataRoom) : c.retLen = c.retSize := by
  unfold dataRoom at hr
  unfold RpcCall.retLen
  rw [Nat.mod_eq_of_lt (by omega), if_pos (by omega)]

theorem RpcCall.alignArg_retLen (hr : c.retSize ≤ dataRoom) :
    alignArg c.retLen = roundArg c.retSize := by
  rw [RpcCall.retLen_eq hr]
  unfold dataRoom at hr
  exact alignArg_eq (by omega)

theorem RpcCall.offsets_eq (hr : c.retSize ≤ dataRoom) :
    c.offsets = argOffsets (roundArg c.retSize) c.args := by
  rw [RpcCall.offsets, RpcCall.alignArg_retLen hr]

theorem RpcCall.room (h : c.tasvirVrpc data = .ok data') (hr : c.retSize ≤ dataRoom) :
    roundArg c.retSize+argsSize c.args+dataRoom < 2^15 := by
  have hargs := RpcCall.argsSize_le h
  unfold dataRoom at *
  unfold roundArg
  omega

/-- The declared length ends with the last argument. -/
theorem RpcCall.pktLen_eq (h : c.tasvirVrpc data = .ok data') (hr : c.retSize ≤ dataRoom) :
    c.pktLen = offData+(roundArg c.retSize+argsSize c.args) := by
  have hroom := RpcCall.room h hr
  unfold dataRoom at hroom
  have hdvd := dvd_argsSize c.args
  have hround : ∀ n, n+7 < 2^15 → alignArg (u64 n)%2^16 = roundArg n := by
    intro n hn
    have hu : u64 n = n := Nat.mod_eq_of_lt (by omega)
    rw [hu, alignArg_eq (by omega)]
    apply Nat.mod_eq_of_lt
    unfold roundArg
    omega
  unfold RpcCall.pktLen
  rw [RpcCall.alignArg_retLen hr, RpcCall.offsets_eq hr]
  rcases List.eq_nil_or_concat c.args with hnil | hne
  · rw [hnil] at hroom ⊢
    simp only [argsSize, List.map_nil, List.sum_nil] at hroom
    simp only [argOffsets, List.getLast?_nil, Option.map_none, Option.getD_none, argsSize,
      List.map_nil, List.sum_nil]
    rw [hround _ (by unfold offData; omega)]
    unfold roundArg offData
    omega
  · have hne' : c.args ≠ [] := by
      obtain ⟨as, a, ha⟩ := hne
      simp [ha]
    obtain ⟨p, a, hp, ha, -, hend⟩ := argOffsets_last (roundArg c.retSize)
      (fun a ha => (RpcCall.supported h a ha).size_le.trans (by decide)) (by unfold dataRoom; omega) hne'
    have hsize := le_roundArg a.size
    rw [hp, ha]
    simp only [Option.map_some, Option.getD_some]
    rw [hround _ (by unfold offData; omega)]
    -- the offset of the last argument is a multiple of eight
    unfold roundArg offData at *
    omega

/-- What the callee reads of the message as it was sent. -/
theorem RpcCall.read_sent (h : c.tasvirVrpc data = .ok data') (hr : c.retSize ≤ dataRoom) :
    ∀ x ∈ c.offsets.zip c.args, ∀ j < x.2.size, data' (x.1+j) = x.2.stored j := by
  have hroom := RpcCall.room h hr
  have h' := h
  unfold RpcCall.tasvirVrpc at h'
  rw [RpcCall.offsets_eq hr] at h' ⊢
  exact (storeArgs_spec (fun a ha => (RpcCall.supported h a ha).size_le.trans (by decide))
    (by omega) h').1

theorem RpcCall.layout (h : c.tasvirVrpc data = .ok data') (hr : c.retSize ≤ dataRoom) :
    (∀ x ∈ c.offsets.zip c.args, roundArg c.retSize ≤ x.1 ∧
      x.1+x.2.size ≤ roundArg c.retSize+argsSize c.args) ∧
    (c.offsets.zip c.args).Pairwise (fun x y => x.1+x.2.size ≤ y.1) := by
  have hroom := RpcCall.room h hr
  rw [RpcCall.offsets_eq hr]
  exact argOffsets_spec _ (fun a ha => (RpcCall.supported h a ha).size_le.trans (by decide)) (by omega)

theorem RpcCall.readArgs_eq_iff {recv : MsgData} :
    c.readArgs recv = c.args.map VarArg.value ↔
      ∀ x ∈ c.offsets.zip c.args, ∀ j < x.2.size, recv (x.1+j) = x.2.passed j := by
  have hmap : (c.offsets.zip c.args).map (fun x => x.2.value) = c.args.map VarArg.value := by
    conv_rhs => rw [← c.map_snd_zip]
    rw [List.map_map]
    rfl
  rw [← hmap, RpcCall.readArgs, List.map_inj_left]
  constructor
  · intro he x hx
    exact readBytes_eq_iff.mp (he x hx)
  · intro he x hx
    exact readBytes_eq_iff.mpr (he x hx)

theorem RpcCall.mem_regions {x : ℕ × ℕ} (hx : x ∈ c.regions) :
    x = (0, c.retSize) ∨ ∃ y ∈ c.offsets.zip c.args, x = (y.1, y.2.size) := by
  rcases List.mem_cons.mp hx with rfl | hx
  · exact .inl rfl
  · right
    rw [List.zip_map_right] at hx
    obtain ⟨y, hy, rfl⟩ := List.mem_map.mp hx
    exact ⟨y, hy, rfl⟩

theorem RpcCall.exact_iff (h : c.tasvirVrpc data = .ok data') {a : VarArg} (ha : a ∈ c.args) :
    a.Exact ↔ ∀ j < a.size, a.stored j = a.passed j :=
  (RpcCall.supported h a ha).exact_iff (found_passArgs ha)

theorem le_argsSize {as : List VarArg} {a : VarArg} (ha : a ∈ as) : a.size ≤ argsSize as :=
  (le_roundArg a.size).trans (List.le_sum_of_mem (List.mem_map_of_mem ha))

/-- In a message that fits, the arguments are aligned at their offsets. -/
theorem RpcCall.Fits.aligned_iff (hf : c.Fits) :
    AlignedFrom (addrMsgData+roundArg c.retSize) c.args ↔
      ∀ x ∈ c.offsets.zip c.args, x.2.type.msgAlign ∣ addrMsgData+x.1 := by
  have hround := le_roundArg c.retSize
  unfold RpcCall.Fits at hf
  rw [RpcCall.offsets_eq (by omega)]
  apply alignedFrom_iff
  · intro a ha
    have := le_argsSize ha
    omega
  · unfold dataRoom at *
    omega

theorem ArgType.align_dvd_msgAlign (t : ArgType) : t.align ∣ t.msgAlign := by
  unfold ArgType.msgAlign
  split
  · exact t.align_dvd
  · exact dvd_rfl

/-- A message that fits, is aligned and loses no bytes makes the round trip. -/
theorem RpcCall.roundTrip_of_fits (h : c.tasvirVrpc data = .ok data') (hf : c.Fits)
    (hal : c.Aligned) (he : ∀ a ∈ c.args, a.Exact) : c.RoundTrip data' := by
  have halign := hf.aligned_iff.mp hal.2
  have hround := le_roundArg c.retSize
  unfold RpcCall.Fits at hf
  have hr : c.retSize ≤ dataRoom := by omega
  have hpkt := RpcCall.pktLen_eq h hr
  obtain ⟨hin, hpair⟩ := RpcCall.layout h hr
  constructor
  case disjoint =>
    rw [RpcCall.regions, List.pairwise_cons, List.zip_map_right, List.pairwise_map]
    constructor
    · intro y hy
      obtain ⟨x, hx, rfl⟩ := List.mem_map.mp hy
      have hstart := (hin x hx).1
      left
      simp only [Prod.map_fst, id_eq]
      omega
    · exact hpair.imp fun hxy => .inl hxy
  case inside =>
    intro x hx
    rcases RpcCall.mem_regions hx with rfl | ⟨y, hy, rfl⟩
    · simp only
      omega
    · have hend := (hin y hy).2
      simp only
      omega
  case aligned =>
    exact ⟨hal.1, fun x hx => (ArgType.align_dvd_msgAlign _).trans (halign x hx)⟩
  case args =>
    -- an exact argument is read back as it was stored
    intro recv hd
    rw [RpcCall.readArgs_eq_iff]
    intro x hx j hj
    have hend := (hin x hx).2
    have hmem := (List.of_mem_zip hx).2
    rw [hd _ (by omega) (by omega), RpcCall.read_sent h hr x hx j hj]
    exact (RpcCall.exact_iff h hmem).mp (he _ hmem) j hj
  case ret =>
    intro recv _ f resp hd
    rw [RpcCall.retLen_eq hr]
    apply List.ext_getElem
    · simp [readBytes]
    intro j hj _
    have hj' : j < c.retSize := by simpa [readBytes] using hj
    simp only [readBytes, List.getElem_map, List.getElem_range, Nat.zero_add]
    rw [hd j (by omega) (by omega), storeBytes, if_pos (by omega)]
    simp [hj']

theorem RpcCall.delivered_update (sent : MsgData) {k : ℕ} (hk : dataRoom ≤ k) (b : UInt8) :
    c.Delivered sent (Function.update sent k b) := by
  intro j _ hj
  exact Function.update_of_ne (by omega) _ _

/-- A return value that comes back lies in the buffer. -/
theorem RpcCall.RoundTrip.retSize_le (hrt : c.RoundTrip data') : c.retSize ≤ dataRoom := by
  by_contra hgt
  have hret := hrt.ret data' (fun _ _ _ => rfl) (fun _ => Vector.replicate _ 0) _
    (RpcCall.delivered_update _ (k := c.retSize-1) (by omega) 1)
  have hlen := congrArg List.length hret
  simp only [readBytes, List.length_map, List.length_range, Vector.length_toList] at hlen
  have hbyte := congrArg (fun l => l.getD (c.retSize-1) 0) hret
  simp [readBytes, hlen, show c.retSize-1 < c.retSize from by omega] at hbyte

/-- Arguments that arrive lie in the buffer. -/
theorem RpcCall.RoundTrip.fits (hrt : c.RoundTrip data') (h : c.tasvirVrpc data = .ok data') :
    c.Fits := by
  have hr := hrt.retSize_le
  have hroom := RpcCall.room h hr
  have hdvd := dvd_argsSize c.args
  unfold RpcCall.Fits
  by_cases hnil : c.args = []
  · simp only [hnil, argsSize, List.map_nil, List.sum_nil, Nat.add_zero]
    unfold roundArg dataRoom at *
    omega
  · obtain ⟨p, a, -, -, hmem, hend⟩ := argOffsets_last (roundArg c.retSize)
      (fun a ha => (RpcCall.supported h a ha).size_le.trans (by decide)) (by omega) hnil
    rw [← RpcCall.offsets_eq hr] at hmem
    have hpos : 0 < a.size := a.type.size_pos
    have hlast : p+a.size ≤ dataRoom := by
      by_contra hgt
      -- the last byte of the last argument is not in the buffer, so anything may be read there
      have hk : dataRoom ≤ p+(a.size-1) := by omega
      have hsent := RpcCall.readArgs_eq_iff.mp (hrt.args data' fun _ _ _ => rfl) _ hmem
        (a.size-1) (by simp only; omega)
      have hrecv := RpcCall.readArgs_eq_iff.mp (hrt.args _
        (RpcCall.delivered_update data' hk (data' (p+(a.size-1))+1))) _ hmem
        (a.size-1) (by simp only; omega)
      simp only [Function.update_self] at hsent hrecv
      rw [hsent] at hrecv
      simp at hrecv
    unfold roundArg dataRoom at *
    omega

theorem RpcCall.RoundTrip.exact (hrt : c.RoundTrip data') (h : c.tasvirVrpc data = .ok data') :
    ∀ a ∈ c.args, a.Exact := by
  intro a ha
  obtain ⟨p, hp⟩ := RpcCall.mem_zip ha
  rw [RpcCall.exact_iff h ha]
  intro j hj
  rw [← RpcCall.read_sent h hrt.retSize_le _ hp j hj]
  exact RpcCall.readArgs_eq_iff.mp (hrt.args data' fun _ _ _ => rfl) _ hp j hj

theorem RpcCall.RoundTrip.isAligned (hrt : c.RoundTrip data') (h : c.tasvirVrpc data = .ok data') :
    c.Aligned := by
  refine ⟨hrt.aligned.1, (hrt.fits h).aligned_iff.mpr ?_⟩
  intro x hx
  have hstore := (supported_of_foldlM h x hx).2
  unfold ArgType.msgAlign
  split
  next h16 => exact hstore h16
  next => exact hrt.aligned.2 x hx

end

/-- A call that does not abort makes the round trip exactly when the message fits in its buffer,
the places of its values are aligned, and `va_arg` finds every argument where it was passed and
none of five, six or seven bytes that is more than a sign-extended int. -/
theorem rpc_round_trip_iff (c : RpcCall) (data : MsgData) (h : c.tasvirVrpc data ≠ .error .abort) :
    (∃ data', c.tasvirVrpc data = .ok data' ∧ c.RoundTrip data') ↔
      c.Fits ∧ c.Aligned ∧ ∀ a ∈ c.args, a.Exact := by
  constructor
  · rintro ⟨data', hok, hrt⟩
    exact ⟨hrt.fits hok, hrt.isAligned hok, hrt.exact hok⟩
  · rintro ⟨hf, hal, he⟩
    have halign := hf.aligned_iff.mp hal.2
    obtain ⟨data', hok⟩ : ∃ data', c.tasvirVrpc data = .ok data' := by
      apply foldlM_ok_of_aligned h
      intro x hx h16
      have := halign x hx
      rwa [ArgType.msgAlign, if_pos h16] at this
    exact ⟨data', hok, RpcCall.roundTrip_of_fits hok hf hal he⟩

def argType (size align : ℕ) (h : 0 < size ∧ align ∣ 16) : ArgType := ⟨size, align, false, h.1, h.2⟩

theorem int_align : 4 ∣ 16 := by decide

/-- `tasvir_area_add_user`: two pointers and an int, through `tasvir_rpc_wait`; the int is on the
stack. -/
def addUserCall : RpcCall where
  retSize := 4
  retAlign := 4
  types := [argType 8 8 (by decide), argType 8 8 (by decide), argType 4 4 (by decide)]
  named := 4
  area := ⟨fun j => UInt8.ofNat j, fun _ => 255⟩
  argc_le := by decide
  ret_dvd := int_align

theorem rpc_round_trip_iff_add_user :
    ∃ data', addUserCall.tasvirVrpc (fun _ => 0) = .ok data' ∧ addUserCall.RoundTrip data' := by
  have hfits : addUserCall.Fits := by
    unfold RpcCall.Fits
    decide
  have haligned : addUserCall.Aligned := by
    refine ⟨by decide, ?_⟩
    simp only [addUserCall, RpcCall.args, passArgs, AlignedFrom]
    decide
  obtain ⟨data', hok⟩ : ∃ data', addUserCall.tasvirVrpc (fun _ => 0) = .ok data' := ⟨_, rfl⟩
  have habort : addUserCall.tasvirVrpc (fun _ => 0) ≠ .error .abort := by
    rw [hok]
    nofun
  refine (rpc_round_trip_iff addUserCall (fun _ => 0) habort).mpr ⟨hfits, haligned, ?_⟩
  intro a ha
  have hfound := found_of_plain addUserCall.area ⟨32, 0⟩ addUserCall.types (by decide) a ha
  have htype : a.type ∈ addUserCall.types := by
    rw [← map_type_passArgs addUserCall.area ⟨32, 0⟩ ⟨32, 0⟩ addUserCall.types]
    exact List.mem_map_of_mem ha
  have hsize : ∀ t ∈ addUserCall.types, t.size = 8 ∨ t.size = 4 := by decide
  unfold VarArg.Exact
  rw [if_pos hfound]
  intro h4 h8
  have := hsize _ htype
  unfold VarArg.size at *
  omega

/-- A function with an argument of type `tasvir_nid`, the six bytes of a MAC address. -/
def nidCall : RpcCall where
  retSize := 4
  retAlign := 4
  types := [argType 6 1 (by decide)]
  named := 2
  area := ⟨fun j => UInt8.ofNat (j-15), fun _ => 0⟩
  argc_le := by decide
  ret_dvd := int_align

/-- Of the address 1:2:3:4:5:6 the callee reads 1:2:3:4:0:0. -/
theorem six_byte_struct_cut :
    ∃ data', nidCall.tasvirVrpc (fun _ => 0) = .ok data' ∧
      nidCall.readArgs data' = [[1, 2, 3, 4, 0, 0]] ∧
      nidCall.args.map VarArg.value = [[1, 2, 3, 4, 5, 6]] ∧ ¬nidCall.RoundTrip data' := by
  refine ⟨_, rfl, by decide +kernel, by decide +kernel, ?_⟩
  intro hrt
  have hargs := hrt.args _ fun _ _ _ => rfl
  exact absurd hargs (by decide +kernel)

def wordPair : ArgType := argType 16 8 (by decide)

/-- A struct of two words behind five words. -/
def wordPairCall (retSize : ℕ) : RpcCall where
  retSize := retSize
  retAlign := 4
  types := List.replicate 5 (argType 8 8 (by decide)) ++ [wordPair]
  named := 2
  area := ⟨fun j => UInt8.ofNat j, fun j => UInt8.ofNat j⟩
  argc_le := by decide
  ret_dvd := int_align

/-- The struct lies at 8 on the stack and `va_arg` for a `__uint128_t` looks at 16. Behind a return
value of 4 bytes its store is misaligned as well. -/
example : (wordPairCall 16).args.map VarArg.found = [true, true, true, true, true, false] ∧
    ((wordPairCall 4).tasvirVrpc fun _ => 0).toOption.isNone = true := by
  decide +kernel

end Tasvir
