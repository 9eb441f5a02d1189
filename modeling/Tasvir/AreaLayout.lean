import Mathlib.Tactic
import Tasvir.Container

/-! The layout that `tasvir_new` computes for an area, and when a request that the parent
accepts gets the space it asked for. -/
namespace Tasvir

def Layout.logData (l : Layout) (h i : ℕ) : ℕ := u64 (h+l.offsetLog+i*l.sizeLog)

/-- What other functions rely on in the layout of an area at `h`. -/
structure Layout.Sound (l : Layout) (desc : Desc) (h : ℕ) : Prop where
  metadata : sizeofHeader+desc.nrAreasMax*sizeofDesc ≤ l.offsetLogEnd
  payload : desc.type ≠ .container → sizeofHeader+desc.len ≤ l.offsetLogEnd
  children : desc.type = .container →
    l.offsetLogEnd ≤ l.offsetLog ∧ desc.len-alignment ≤ l.offsetLog-l.offsetLogEnd
  aligned : alignment ∣ l.offsetLogEnd
  /-- the words of a log, 4096 bytes each, come in blocks of 8 -/
  blocks : l.sizeLog/8*4096 = l.offsetLogEnd ∧ 8 ∣ l.sizeLog/8
  /-- one bit for each line -/
  bits : 8*l.sizeLog = l.offsetLogEnd/64 ∧ 64 ∣ l.offsetLogEnd
  log_aligned : ∀ i < nrAreaLogs, 64 ∣ l.logData h i
  contiguous : ∀ i, i+1 < nrAreaLogs → l.logData h (i+1) = l.logData h i+l.sizeLog
  apart : ∀ i j, i < j → j < nrAreaLogs → l.logData h i+l.sizeLog ≤ l.logData h j
  /-- outside of what `tasvir_update_va` remaps -/
  log_start : ∀ i < nrAreaLogs, h+l.offsetLogEnd ≤ l.logData h i
  log_end : ∀ i < nrAreaLogs, l.logData h i+l.sizeLog ≤ h+l.len

theorem tasvirAlign_mod (x : ℕ) : tasvirAlign x = (x+32767)%2^64/32768*32768 := by
  have h := and_high_mask (u64 (x+32768-1)) 15 (by norm_num) (Nat.mod_lt _ (by norm_num))
  change u64 (x+32768-1) &&& (2^64-2^15) = _
  rw [h, u64]
  rfl

section
variable (desc : Desc)

def Desc.size (desc : Desc) : ℕ := sizeofHeader+desc.nrAreasMax*sizeofDesc+desc.len

theorem spaceRequirements_log : (spaceRequirements desc).offsetLogEnd < 2^64 ∧
    (spaceRequirements desc).sizeLog = ((spaceRequirements desc).offsetLogEnd/512+7)/8*8 ∧
    32768 ∣ (spaceRequirements desc).offsetLogEnd ∧
    (spaceRequirements desc).len = ((spaceRequirements desc).offsetLog+
      tasvirAlign (nrAreaLogs*(spaceRequirements desc).sizeLog))%2^64 := by
  have hend : (spaceRequirements desc).offsetLogEnd < 2^64 := by
    change tasvirAlign _ < 2^64
    rw [tasvirAlign_mod]
    omega
  have hlog : (spaceRequirements desc).sizeLog =
      ((spaceRequirements desc).offsetLogEnd/512+7)/8*8 := by
    change alignx ((spaceRequirements desc).offsetLogEnd >>> 9) 8 = _
    rw [Nat.shiftRight_eq_div_pow, alignx_eight _ (by omega)]
  have hbytes : nrAreaLogs*(spaceRequirements desc).sizeLog%2^64 =
      nrAreaLogs*(spaceRequirements desc).sizeLog := by
    rw [nrAreaLogs]
    omega
  have hlen : (spaceRequirements desc).len = ((spaceRequirements desc).offsetLog+
      tasvirAlign (nrAreaLogs*(spaceRequirements desc).sizeLog%2^64))%2^64 := rfl
  rw [hbytes] at hlen
  exact ⟨hend, hlog, dvd_tasvirAlign _, hlen⟩

theorem small_of_covered (h : desc.size ≤ (spaceRequirements desc).len) : desc.Small := by
  obtain ⟨hend, hlog, -, hlen⟩ := spaceRequirements_log desc
  have hA : tasvirAlign (nrAreaLogs*(spaceRequirements desc).sizeLog) ≤ 2^58 := by
    rw [tasvirAlign_mod, nrAreaLogs]
    omega
  have hsize : desc.size < 2^64 := by omega
  unfold Desc.size at h hsize
  have hmeta : (spaceRequirements desc).sizeMetadata = sizeofHeader+desc.nrAreasMax*sizeofDesc := by
    unfold spaceRequirements u64
    simp only
    rw [Nat.mod_eq_of_lt (a := desc.nrAreasMax*sizeofDesc) (by omega), Nat.mod_eq_of_lt (by omega)]
  have hoff : (spaceRequirements desc).offsetLog =
      (sizeofHeader+desc.nrAreasMax*sizeofDesc+desc.len+32767)%2^64/32768*32768 := by
    change tasvirAlign (u64 ((spaceRequirements desc).sizeMetadata+desc.len)) = _
    rw [hmeta, u64, Nat.mod_eq_of_lt (by omega), tasvirAlign_mod]
  have hx : sizeofHeader+desc.nrAreasMax*sizeofDesc+desc.len+32767 < 2^64 := by
    by_contra hge
    omega
  refine ⟨hx, ?_⟩
  by_contra hge
  rw [Nat.mod_eq_of_lt hx] at hoff
  omega

/-- The layout that `tasvir_new` computes, for an area at any aligned address. -/
theorem area_layout (hs : desc.Small) (x : ℕ)
    (hfits : tasvirAlign x+(spaceRequirements desc).len < 2^64) :
    (spaceRequirements desc).Sound desc (tasvirAlign x) := by
  obtain ⟨hend, hlog, hdvd, hlen⟩ := spaceRequirements_log desc
  obtain ⟨hlogEnd, hoff, hle, -⟩ := spaceRequirements_spec desc hs
  rw [Nat.mod_eq_of_lt hs.len] at hlen
  have hlogs : 4*(spaceRequirements desc).sizeLog ≤
      tasvirAlign (nrAreaLogs*(spaceRequirements desc).sizeLog) := by
    rw [tasvirAlign_mod, nrAreaLogs]
    omega
  have hoffset : 32768 ∣ (spaceRequirements desc).offsetLog := dvd_tasvirAlign _
  have hh : 32768 ∣ tasvirAlign x := dvd_tasvirAlign x
  have hbefore : (spaceRequirements desc).offsetLogEnd ≤ (spaceRequirements desc).offsetLog := by
    have htype : (if desc.type = .container then 0 else desc.len) ≤ desc.len := by
      split_ifs <;> omega
    omega
  generalize tasvirAlign x = h at *
  -- under the bound the addresses of the logs do not wrap
  have hdata (i : ℕ) (hi : i < nrAreaLogs) : (spaceRequirements desc).logData h i =
      h+(spaceRequirements desc).offsetLog+i*(spaceRequirements desc).sizeLog := by
    have hi' : i*(spaceRequirements desc).sizeLog ≤ 3*(spaceRequirements desc).sizeLog := by
      apply Nat.mul_le_mul_right
      simp only [nrAreaLogs] at hi
      omega
    rw [Layout.logData, u64, Nat.mod_eq_of_lt (by omega)]
  -- log `i` ends where the next begins, or before
  have hmul (i j : ℕ) (hij : i < j) :
      i*(spaceRequirements desc).sizeLog+(spaceRequirements desc).sizeLog ≤
        j*(spaceRequirements desc).sizeLog := by
    calc i*(spaceRequirements desc).sizeLog+(spaceRequirements desc).sizeLog
        = (i+1)*(spaceRequirements desc).sizeLog := by ring
      _ ≤ j*(spaceRequirements desc).sizeLog := Nat.mul_le_mul_right _ hij
  obtain ⟨k, hk⟩ := hdvd
  obtain ⟨k', hk'⟩ := hoffset
  obtain ⟨k'', hk''⟩ := hh
  have hsizeLog : (spaceRequirements desc).sizeLog = 64*k := by omega
  refine ⟨by omega, ?_, ?_, ⟨k, ?_⟩, ?_, ?_, ?_, ?_, ?_, ?_, ?_⟩
  · intro htype
    rw [if_neg htype] at hlogEnd
    omega
  · intro htype
    rw [if_pos htype] at hlogEnd
    refine ⟨hbefore, ?_⟩
    norm_num [alignment]
    omega
  · norm_num [alignment]
    exact hk
  · exact ⟨by omega, ⟨k, by omega⟩⟩
  · exact ⟨by omega, ⟨512*k, by omega⟩⟩
  · intro i hi
    rw [hdata i hi, hsizeLog, hk', hk'']
    exact ⟨512*k''+512*k'+i*k, by ring⟩
  · intro i hi
    rw [hdata i (by omega), hdata (i+1) hi]
    ring
  · intro i j hij hj
    have := hmul i j hij
    rw [hdata i (hij.trans hj), hdata j hj]
    omega
  · intro i hi
    rw [hdata i hi]
    omega
  · intro i hi
    have := hmul i 4 hi
    rw [hdata i hi]
    omega

end

theorem area_layout_megabyte :
    (spaceRequirements { len := 2^20, type := .app }).Sound { len := 2^20, type := .app }
      (tasvirAlign (2^40+sizeofDesc)) :=
  area_layout _ ⟨by decide +kernel, by decide +kernel⟩ _ (by decide +kernel)

namespace Container

/-- The area `x` has the bytes that `desc` asks for, inside of the container and before its
logs. -/
structure Holds (ct : Container) (desc x : Desc) : Prop where
  size : desc.size ≤ x.len
  start : ct.desc.h ≤ x.h
  stop : x.h+x.len ≤ ct.diffLog0

/-- No 64-bit computation for the request wraps, and the end of the last child lies behind the
start of the container. -/
structure NoWrap (ct : Container) (desc : Desc) : Prop where
  size : desc.Small
  place : ct.nextH+(spaceRequirements desc).len < 2^64
  start : ct.desc.h ≤ ct.nextH

theorem alloc_some {env : AllocEnv} {log : Words} {ct : Container} {desc : Desc} {i : ℕ}
    (h : (ct.tasvirNewAllocDesc env log desc).2.2 = some i) :
    u64 (ct.nextH+desc.len) < ct.diffLog0 ∧
    ((ct.tasvirNewAllocDesc env log desc).2.1.c i).h = ct.nextH ∧
    ((ct.tasvirNewAllocDesc env log desc).2.1.c i).len = desc.len := by
  rcases ct.alloc_cases env log desc with hr | ⟨log', x, hr, -, -, hspace, hh, hlen, -⟩
  · rw [hr] at h
    exact absurd h (by simp)
  · rw [hr] at h ⊢
    have hi : ct.nrAreas = i := Option.some.inj h
    simp only [← hi, Function.update_self]
    exact ⟨hspace, hh, hlen⟩

end Container

/-- An accepted request gets what it asks for exactly when nothing wraps. -/
theorem accepted_holds_iff (env : AllocEnv) (log : Words) (ct : Container) (desc : Desc) (i : ℕ)
    (hlog : ct.diffLog0 < 2^64)
    (hacc : (ct.tasvirNewAllocDesc env log (newDesc env desc)).2.2 = some i) :
    ct.Holds desc ((ct.tasvirNewAllocDesc env log (newDesc env desc)).2.1.c i) ↔
      ct.NoWrap (withDefaults env desc) := by
  obtain ⟨hspace, hh, hlen⟩ := Container.alloc_some hacc
  have hlen' : (newDesc env desc).len = (spaceRequirements (withDefaults env desc)).len := rfl
  have hsize : (withDefaults env desc).size = desc.size := rfl
  rw [hlen'] at hspace hlen
  constructor
  · rintro ⟨h1, h2, h3⟩
    rw [hlen, ← hsize] at h1
    rw [hh] at h2
    rw [hh, hlen] at h3
    exact ⟨small_of_covered _ h1, by omega, h2⟩
  · rintro ⟨h1, h2, h3⟩
    obtain ⟨-, hoff, hle, -⟩ := spaceRequirements_spec _ h1
    rw [u64, Nat.mod_eq_of_lt h2] at hspace
    refine ⟨?_, ?_, ?_⟩
    · rw [hlen, ← hsize]
      exact hoff.trans hle
    · rw [hh]
      exact h3
    · rw [hh, hlen]
      omega

/-- In a container whose children lie inside of it only rounding up can lead in front of it. -/
theorem Container.Inv.start_iff {ct : Container} (hi : ct.Inv) (hlog : ct.diffLog0 < 2^64) :
    ct.desc.h ≤ ct.nextH ↔ ct.lastEnd+32767 < 2^64 := by
  constructor
  · intro h
    by_contra hwrap
    have hlast : ct.lastEnd < 2^64 := by
      unfold Container.lastEnd
      split_ifs with hn
      · have := hi.child_end (ct.nrAreas-1) (by omega)
        omega
      · have := hi.room
        rw [hi.data_eq]
        omega
    have hnext : ct.nextH = 0 := by
      rw [Container.nextH, u64, Nat.mod_eq_of_lt hlast, tasvirAlign_mod]
      omega
    have := hi.h_pos
    omega
  · intro h
    have := (hi.nextH_spec h).1
    omega

/-- A request for 2^64-1344 bytes, which with the header is 2^64. -/
def hugeRequest : Desc := { len := 2^64-1344, type := .app }

theorem hugeRequest_accepted (log : Words) :
    (exampleRoot.tasvirNewAllocDesc exampleEnv log (newDesc exampleEnv hugeRequest)).2.2 = some 0 := by
  unfold Container.tasvirNewAllocDesc
  rw [if_neg (by decide +kernel), if_neg (by decide +kernel), if_neg (by decide +kernel)]
  rfl

theorem accepted_holds_iff_small :
    exampleRoot.Holds { len := 100 } ((exampleRoot.tasvirNewAllocDesc exampleEnv (fun _ => 0)
      (newDesc exampleEnv { len := 100 })).2.1.c 0) ↔
    exampleRoot.NoWrap (withDefaults exampleEnv { len := 100 }) := by
  apply accepted_holds_iff exampleEnv (fun _ => 0) exampleRoot { len := 100 } 0 (by decide +kernel)
  unfold Container.tasvirNewAllocDesc
  rw [if_neg (by decide +kernel), if_neg (by decide +kernel), if_neg (by decide +kernel)]
  rfl

theorem huge_request_accepted :
    (exampleRoot.tasvirNewAllocDesc exampleEnv (fun _ => 0)
      (newDesc exampleEnv hugeRequest)).2.2 = some 0 ∧
    ¬ exampleRoot.Holds hugeRequest ((exampleRoot.tasvirNewAllocDesc exampleEnv (fun _ => 0)
      (newDesc exampleEnv hugeRequest)).2.1.c 0) := by
  have hacc := hugeRequest_accepted fun _ => 0
  refine ⟨hacc, ?_⟩
  intro h
  have hlen := (Container.alloc_some hacc).2.2
  have hsize := h.size
  rw [hlen] at hsize
  exact absurd hsize (by decide +kernel)

end Tasvir
