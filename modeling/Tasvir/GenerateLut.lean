import Mathlib.Tactic

/-! The look-up tables of `cuckoo-lb`: every entry is filled by the load balancers in turn, each
along a probe sequence of its own. -/
namespace Tasvir

namespace GenerateLut

/-- The mark of an empty entry, `0x8000`. -/
def emptySlot : ℕ := 0x8000

/-- `BREAK_COUNTER`. -/
def breakCounter : ℕ := 1000

/-- `perm`. -/
def perm (offset skip lutLen j : ℕ) : ℕ := (offset+skip*j)%2^64%lutLen

/-- What `generate_lut` works on, behind the hashes. -/
structure Probe where
  lbs : ℕ
  lutLen : ℕ
  offset : ℕ → ℕ
  skip : ℕ → ℕ

/-- `compute_offset_and_skip` for each name. The hashes are of all 64 bytes of `name`, those behind
the terminating zero too, which are whatever was there: `h0 i` and `h1 i` are any numbers. -/
def computeOffsetAndSkip (h0 h1 : ℕ → ℕ) (lbs lutLen : ℕ) : Probe :=
  ⟨lbs, lutLen, fun i => h1 i%lutLen, fun i => h0 i%(lutLen-1)+1⟩

structure LutState where
  lut : ℕ → ℕ
  next : ℕ → ℕ
  n : ℕ

/-- The entry that balancer `i` probes with `next[i] = j`. -/
def Probe.slot (p : Probe) (i j : ℕ) : ℕ := perm (p.offset i) (p.skip i) p.lutLen j

/-- `while (lut[c] != 0x8000)`, with as many rounds left as `BREAK_COUNTER` allows; gives `next[i]`
and `counter`. -/
def scan (p : Probe) (lut : ℕ → ℕ) (i : ℕ) : ℕ → ℕ → ℕ → ℕ×ℕ
  | 0, next, counter => (next, counter)
  | left+1, next, counter =>
    if lut (p.slot i next) ≠ emptySlot then scan p lut i left ((next+1)%2^64) (counter+1)
    else (next, counter)

/-- The body of the loop over the balancers; `perm` leaves nothing for `abort`. -/
def turn (p : Probe) (s : LutState) (i : ℕ) : LutState :=
  let (next, counter) := scan p s.lut i (breakCounter+1) (s.next i) 0
  if counter ≥ breakCounter then { s with next := Function.update s.next i next }
  else
    { lut := Function.update s.lut (p.slot i next) i
      next := Function.update s.next i ((next+1)%2^64)
      n := s.n+1 }

/-- `for (int i = 0; i < lbs; i++)`, left when the table is full. -/
def turns (p : Probe) : List ℕ → LutState → LutState
  | [], s => s
  | i :: is, s => if (turn p s i).n ≥ p.lutLen then turn p s i else turns p is (turn p s i)

/-- `while (n < lut_len)`; each round takes one of the fuel. -/
def fill (p : Probe) : ℕ → LutState → Option LutState
  | 0, _ => none
  | fuel+1, s => if s.n < p.lutLen then fill p fuel (turns p (List.range p.lbs) s) else some s

/-- `generate_lut`. -/
def generateLut (h0 h1 : ℕ → ℕ) (lbs lutLen fuel : ℕ) : Option (ℕ → ℕ) :=
  (fill (computeOffsetAndSkip h0 h1 lbs lutLen) fuel ⟨fun _ => emptySlot, fun _ => 0, 0⟩).map
    LutState.lut

section Turns
variable {p : Probe} {s : LutState} {i : ℕ}

/-- Balancer `i` probes entry `c` at some time. -/
def Probes (p : Probe) (i c : ℕ) : Prop := ∃ j, p.slot i j = c

theorem Probe.slot_mod (p : Probe) (i j : ℕ) : p.slot i (j%2^64) = p.slot i j := by
  have h : (p.offset i+p.skip i*(j%2^64))%2^64 = (p.offset i+p.skip i*j)%2^64 :=
    Nat.ModEq.add_left _ (Nat.ModEq.mul_left _ (Nat.mod_modEq j (2^64)))
  rw [Probe.slot, Probe.slot, perm, perm, h]

theorem Probe.slot_lt (p : Probe) (hL : 0 < p.lutLen) (i j : ℕ) : p.slot i j < p.lutLen :=
  Nat.mod_lt _ hL

/-- The loop passes full entries only, and stops early at an empty one only. -/
theorem scan_spec (p : Probe) (lut : ℕ → ℕ) (i left next counter : ℕ) :
    ∃ k ≤ left, (scan p lut i left next counter).1%2^64 = (next+k)%2^64 ∧
      (scan p lut i left next counter).2 = counter+k ∧
      (∀ k' < k, lut (p.slot i (next+k')) ≠ emptySlot) ∧
      (k < left → lut (p.slot i (next+k)) = emptySlot) := by
  induction left generalizing next counter with
  | zero =>
    refine ⟨0, le_rfl, rfl, rfl, ?_, ?_⟩
    · intro k' hk'
      exact absurd hk' (Nat.not_lt_zero k')
    · intro h
      exact absurd h (lt_irrefl 0)
  | succ left ih =>
    rw [scan]
    by_cases h : lut (p.slot i next) ≠ emptySlot
    · rw [if_pos h]
      obtain ⟨k, hk, hnext, hcounter, hpass, hstop⟩ := ih ((next+1)%2^64) (counter+1)
      have hslot (k' : ℕ) : p.slot i ((next+1)%2^64+k') = p.slot i (next+(k'+1)) := by
        rw [← p.slot_mod, Nat.mod_add_mod, p.slot_mod]
        congr 1
        omega
      refine ⟨k+1, by omega, ?_, by omega, ?_, ?_⟩
      · rw [hnext, Nat.mod_add_mod]
        congr 1
        omega
      · intro k' hk'
        cases k' with
        | zero => exact h
        | succ k' =>
          rw [← hslot]
          exact hpass k' (by omega)
      · intro hlt
        rw [← hslot]
        exact hstop (by omega)
    · rw [if_neg h]
      refine ⟨0, Nat.zero_le _, rfl, rfl, ?_, ?_⟩
      · intro k' hk'
        exact absurd hk' (Nat.not_lt_zero k')
      · intro _
        exact not_not.mp h

/-- A turn either takes the first empty entry that the balancer comes to, or passes a thousand
full ones. -/
theorem turn_cases (p : Probe) (s : LutState) (i : ℕ) :
    (∃ j, s.lut (p.slot i j) = emptySlot ∧ (turn p s i).lut = Function.update s.lut (p.slot i j) i ∧
      (turn p s i).n = s.n+1) ∨
    ((turn p s i).lut = s.lut ∧ (turn p s i).n = s.n ∧
      (∀ i', i' ≠ i → (turn p s i).next i' = s.next i') ∧
      ∃ k, breakCounter ≤ k ∧ (turn p s i).next i%2^64 = (s.next i+k)%2^64 ∧
        ∀ k' < k, s.lut (p.slot i (s.next i+k')) ≠ emptySlot) := by
  obtain ⟨k, hk, hnext, hcounter, hpass, hstop⟩ :=
    scan_spec p s.lut i (breakCounter+1) (s.next i) 0
  rw [Nat.zero_add] at hcounter
  by_cases h : breakCounter ≤ k
  · right
    have hturn : turn p s i = ⟨s.lut,
        Function.update s.next i (scan p s.lut i (breakCounter+1) (s.next i) 0).1, s.n⟩ := by
      simp only [turn, hcounter, ge_iff_le, if_pos h]
    rw [hturn]
    refine ⟨rfl, rfl, fun i' hi' => Function.update_of_ne hi' _ _, k, h, ?_, hpass⟩
    rw [← hnext]
    simp only [Function.update_self]
  · left
    have hslot : p.slot i (scan p s.lut i (breakCounter+1) (s.next i) 0).1 =
        p.slot i (s.next i+k) := by
      rw [← p.slot_mod, hnext, p.slot_mod]
    refine ⟨s.next i+k, hstop (by omega), ?_, ?_⟩
    · simp only [turn, hcounter, ge_iff_le, if_neg h, hslot]
    · simp only [turn, hcounter, ge_iff_le, if_neg h]

/-- What holds of the table in every turn. -/
structure LutInv (p : Probe) (s : LutState) : Prop where
  count : s.n+((Finset.range p.lutLen).filter (fun c => s.lut c = emptySlot)).card = p.lutLen
  owner : ∀ c, c < p.lutLen → s.lut c ≠ emptySlot → s.lut c < p.lbs ∧ Probes p (s.lut c) c

theorem LutInv.turn (hL : 0 < p.lutLen) (hlbs : p.lbs ≤ emptySlot) (h : LutInv p s)
    (hi : i < p.lbs) : LutInv p (turn p s i) := by
  rcases turn_cases p s i with ⟨j, hempty, hlut, hn⟩ | ⟨hlut, hn, -⟩
  · have hc := p.slot_lt hL i j
    have hfull : i ≠ emptySlot := by omega
    constructor
    · rw [hlut, hn]
      have hset : (Finset.range p.lutLen).filter
          (fun c => Function.update s.lut (p.slot i j) i c = emptySlot) =
          ((Finset.range p.lutLen).filter (fun c => s.lut c = emptySlot)).erase (p.slot i j) := by
        ext c
        simp only [Finset.mem_filter, Finset.mem_range, Finset.mem_erase]
        by_cases hcc : c = p.slot i j
        · subst hcc
          simp [hfull]
        · simp [hcc]
      have hmem : p.slot i j ∈ (Finset.range p.lutLen).filter (fun c => s.lut c = emptySlot) :=
        Finset.mem_filter.mpr ⟨Finset.mem_range.mpr hc, hempty⟩
      have hcard := Finset.card_erase_add_one hmem
      have := h.count
      rw [hset]
      omega
    · intro c hcl hne
      rw [hlut] at hne ⊢
      by_cases hcc : c = p.slot i j
      · subst hcc
        rw [Function.update_self]
        exact ⟨hi, j, rfl⟩
      · rw [Function.update_of_ne hcc] at hne ⊢
        exact h.owner c hcl hne
  · constructor
    · rw [hlut, hn]
      exact h.count
    · rw [hlut]
      exact h.owner

theorem LutInv.turns (hL : 0 < p.lutLen) (hlbs : p.lbs ≤ emptySlot) {is : List ℕ}
    (his : ∀ i ∈ is, i < p.lbs) (h : LutInv p s) : LutInv p (turns p is s) := by
  induction is generalizing s with
  | nil => exact h
  | cons i is ih =>
    have hturn := h.turn hL hlbs (his i List.mem_cons_self)
    rw [GenerateLut.turns]
    split
    · exact hturn
    · exact ih (fun i' hi' => his i' (List.mem_cons_of_mem i hi')) hturn

theorem fill_spec (hL : 0 < p.lutLen) (hlbs : p.lbs ≤ emptySlot) {fuel : ℕ} {s' : LutState}
    (h : LutInv p s) (hfill : fill p fuel s = some s') : LutInv p s' ∧ p.lutLen ≤ s'.n := by
  induction fuel generalizing s with
  | zero => cases hfill
  | succ fuel ih =>
    rw [fill] at hfill
    split at hfill
    next => exact ih (h.turns hL hlbs fun i hi => List.mem_range.mp hi) hfill
    next hn =>
      cases hfill
      exact ⟨h, not_lt.mp hn⟩

theorem turn_n_le (p : Probe) (s : LutState) (i : ℕ) : s.n ≤ (turn p s i).n := by
  rcases turn_cases p s i with ⟨j, -, -, hn⟩ | ⟨-, hn, -⟩ <;> omega

theorem turns_n_le (p : Probe) (is : List ℕ) (s : LutState) : s.n ≤ (turns p is s).n := by
  induction is generalizing s with
  | nil => exact le_rfl
  | cons i is ih =>
    rw [turns]
    split
    · exact turn_n_le p s i
    · exact (turn_n_le p s i).trans (ih _)

theorem turns_cons {is : List ℕ} (hn : s.n < p.lutLen) :
    s.n < (turns p (i :: is) s).n ∨ (turns p (i :: is) s = turns p is (turn p s i) ∧
      (turn p s i).lut = s.lut ∧ (turn p s i).n = s.n ∧
      (∀ i', i' ≠ i → (turn p s i).next i' = s.next i') ∧
      ∃ k, breakCounter ≤ k ∧ (turn p s i).next i%2^64 = (s.next i+k)%2^64 ∧
        ∀ k' < k, s.lut (p.slot i (s.next i+k')) ≠ emptySlot) := by
  have hle := turns_n_le p is (turn p s i)
  rcases turn_cases p s i with ⟨j, -, -, hn'⟩ | ⟨hlut, hn', hother, hk⟩
  · left
    rw [turns]
    split <;> omega
  · right
    have hgo : turns p (i :: is) s = turns p is (turn p s i) := by
      rw [turns, if_neg (by omega)]
    exact ⟨hgo, hlut, hn', hother, hk⟩

/-- A round in which nobody takes an entry leaves who has no turn where it is. -/
theorem turns_other {is : List ℕ} (hn : s.n < p.lutLen) (hi : i ∉ is) :
    s.n < (turns p is s).n ∨ ((turns p is s).lut = s.lut ∧ (turns p is s).n = s.n ∧
      (turns p is s).next i = s.next i) := by
  induction is generalizing s with
  | nil => exact .inr ⟨rfl, rfl, rfl⟩
  | cons a is ih =>
    rw [List.mem_cons, not_or] at hi
    rcases turns_cons (i := a) hn with h | ⟨hgo, hlut, hn', hother, -⟩
    · exact .inl h
    · rw [hgo, ← hlut, ← hn', ← hother i hi.1]
      exact ih (by omega) hi.2

/-- It brings who has one nearer to an empty entry. -/
theorem turns_progress {is : List ℕ} (hn : s.n < p.lutLen) (hnodup : is.Nodup) {d : ℕ} (hi : i ∈ is)
    (hd : s.lut (p.slot i (s.next i+d)) = emptySlot) :
    s.n < (turns p is s).n ∨ ((turns p is s).lut = s.lut ∧ (turns p is s).n = s.n ∧
      ∃ d' < d, s.lut (p.slot i ((turns p is s).next i+d')) = emptySlot) := by
  induction is generalizing s with
  | nil => exact absurd hi List.not_mem_nil
  | cons a is ih =>
    rw [List.nodup_cons] at hnodup
    rcases turns_cons (i := a) hn with h | ⟨hgo, hlut, hn', hother, k, hk, hnext, hpass⟩
    · exact .inl h
    rw [hgo]
    have hlt : (turn p s a).n < p.lutLen := by omega
    by_cases hai : i = a
    · -- the entry is behind those that the balancer passes
      subst hai
      have hkd : k ≤ d := by
        by_contra hdk
        exact hpass d (not_le.mp hdk) hd
      rcases turns_other hlt hnodup.1 with h | ⟨hlut', hn'', hnext'⟩
      · exact .inl (hn' ▸ h)
      · right
        refine ⟨hlut'.trans hlut, hn''.trans hn', d-k, ?_, ?_⟩
        · unfold breakCounter at hk
          omega
        · have hslot : p.slot i ((turn p s i).next i+(d-k)) = p.slot i (s.next i+d) := by
            rw [← p.slot_mod, Nat.add_mod, hnext, ← Nat.add_mod, p.slot_mod]
            congr 1
            omega
          rw [hnext', hslot]
          exact hd
    · have hd' : (turn p s a).lut (p.slot i ((turn p s a).next i+d)) = emptySlot := by
        rw [hlut, hother i hai]
        exact hd
      have := ih hlt hnodup.2 ((List.mem_cons.mp hi).resolve_left hai) hd'
      rwa [hlut, hn'] at this

/-- Where every entry is probed, each round takes an entry or comes nearer to one. -/
theorem fill_returns (hL : 0 < p.lutLen) (hlbs : p.lbs ≤ emptySlot)
    (hcover : ∀ c, c < p.lutLen → ∃ i, i < p.lbs ∧ Probes p i c) {fuel d : ℕ} (h : LutInv p s)
    (hi : i < p.lbs) (hd : s.n < p.lutLen → s.lut (p.slot i (s.next i+d)) = emptySlot)
    (hfuel : (p.lutLen-s.n)*2^64+d < fuel) : ∃ s', fill p fuel s = some s' := by
  induction fuel generalizing s i d with
  | zero => exact absurd hfuel (Nat.not_lt_zero _)
  | succ fuel ih =>
    rw [fill]
    by_cases hn : s.n < p.lutLen
    · rw [if_pos hn]
      have h' := h.turns hL hlbs fun i hi => List.mem_range.mp hi
      rcases turns_progress hn List.nodup_range (List.mem_range.mpr hi) (hd hn) with
        hlt | ⟨hlut, hn', d', hd', hempty⟩
      · -- an entry was taken: another empty one, if there is one, is less than 2^64 away
        have hfewer : (p.lutLen-(turns p (List.range p.lbs) s).n)*2^64+2^64 ≤ fuel := by
          calc (p.lutLen-(turns p (List.range p.lbs) s).n)*2^64+2^64
              = (p.lutLen-(turns p (List.range p.lbs) s).n+1)*2^64 := (Nat.succ_mul _ _).symm
            _ ≤ (p.lutLen-s.n)*2^64 := Nat.mul_le_mul_right _ (by omega)
            _ ≤ (p.lutLen-s.n)*2^64+d := Nat.le_add_right _ _
            _ ≤ fuel := Nat.le_of_lt_succ hfuel
        by_cases hfull : (turns p (List.range p.lbs) s).n < p.lutLen
        · have hcard := h'.count
          obtain ⟨c, hc⟩ : ((Finset.range p.lutLen).filter
              (fun c => (turns p (List.range p.lbs) s).lut c = emptySlot)).Nonempty := by
            apply Finset.card_pos.mp
            omega
          obtain ⟨hcL, hc⟩ := Finset.mem_filter.mp hc
          obtain ⟨i', hi', j, hj⟩ := hcover c (Finset.mem_range.mp hcL)
          have hlt64 := Nat.mod_lt (j+(2^64-(turns p (List.range p.lbs) s).next i'%2^64))
            (Nat.two_pow_pos 64)
          apply ih h' hi' (d := (j+(2^64-(turns p (List.range p.lbs) s).next i'%2^64))%2^64)
          · intro _
            have hslot : p.slot i' ((turns p (List.range p.lbs) s).next i'+
                (j+(2^64-(turns p (List.range p.lbs) s).next i'%2^64))%2^64) = p.slot i' j := by
              rw [← p.slot_mod, ← p.slot_mod i' j]
              congr 1
              have := Nat.mod_lt ((turns p (List.range p.lbs) s).next i') (Nat.two_pow_pos 64)
              omega
            rw [hslot, hj]
            exact hc
          · exact (Nat.add_lt_add_left hlt64 _).trans_le hfewer
        · apply ih h' hi (d := 0)
          · intro hlt'
            exact absurd hlt' hfull
          · exact (Nat.add_lt_add_left (Nat.two_pow_pos 64) _).trans_le hfewer
      · apply ih h' hi (d := d')
        · intro _
          rw [hlut]
          exact hempty
        · rw [hn']
          exact (Nat.add_lt_add_left hd' _).trans_le (Nat.le_of_lt_succ hfuel)
    · rw [if_neg hn]
      exact ⟨s, rfl⟩

/-- The numbers of the form `a + s * j`, modulo `L`. -/
theorem exists_add_mul_mod_iff {a s L c : ℕ} (hc : c < L) :
    (∃ j, (a+s*j)%L = c) ↔ a ≡ c [MOD Nat.gcd s L] := by
  constructor
  · rintro ⟨j, hj⟩
    have hmod : a+s*j ≡ c [MOD L] := by
      rw [Nat.ModEq, hj, Nat.mod_eq_of_lt hc]
    have hzero : a+s*j ≡ a+0 [MOD Nat.gcd s L] := by
      apply Nat.ModEq.add_left
      exact Nat.modEq_zero_iff_dvd.mpr ((Nat.gcd_dvd_left s L).mul_right j)
    exact hzero.symm.trans (hmod.of_dvd (Nat.gcd_dvd_right s L))
  · intro h
    obtain ⟨t, ht⟩ := (Nat.modEq_iff_dvd.mp h : ((Nat.gcd s L : ℕ) : ℤ) ∣ (c : ℤ)-a)
    have hbezout := Nat.gcd_eq_gcd_ab s L
    have hLpos : (0 : ℤ) < L := by omega
    have hj : ((((Nat.gcdA s L*t)%(L : ℤ)).toNat : ℕ) : ℤ) = (Nat.gcdA s L*t)%(L : ℤ) :=
      Int.toNat_of_nonneg (Int.emod_nonneg _ hLpos.ne')
    refine ⟨((Nat.gcdA s L*t)%(L : ℤ)).toNat, ?_⟩
    have hmod : (a : ℤ)+s*((Nat.gcdA s L*t)%(L : ℤ)) ≡ c [ZMOD L] := by
      calc (a : ℤ)+s*((Nat.gcdA s L*t)%(L : ℤ))
          ≡ a+s*(Nat.gcdA s L*t) [ZMOD L] :=
            Int.ModEq.add_left _ (Int.ModEq.mul_left _ (Int.mod_modEq _ _))
        _ ≡ a+s*(Nat.gcdA s L*t)+L*(Nat.gcdB s L*t) [ZMOD L] :=
            (Int.modEq_add_fac_self).symm
        _ = c := by
            rw [hbezout] at ht
            linear_combination -ht
    have hnat : a+s*((Nat.gcdA s L*t)%(L : ℤ)).toNat ≡ c [MOD L] := by
      apply Int.natCast_modEq_iff.mp
      push_cast
      rw [hj]
      exact hmod
    rw [hnat, Nat.mod_eq_of_lt hc]

theorem probes_iff (hdvd : p.lutLen ∣ 2^64) {c : ℕ} (hc : c < p.lutLen) :
    Probes p i c ↔ p.offset i ≡ c [MOD Nat.gcd (p.skip i) p.lutLen] := by
  rw [← exists_add_mul_mod_iff hc]
  simp only [Probes, Probe.slot, perm, Nat.mod_mod_of_dvd _ hdvd]

end Turns

section Result
variable {h0 h1 : ℕ → ℕ} {lbs lutLen : ℕ}

theorem lutInv_start (p : Probe) : LutInv p ⟨fun _ => emptySlot, fun _ => 0, 0⟩ := by
  constructor
  · simp
  · intro c _ h
    exact absurd rfl h

/-- A table whose length divides `2^64` is finished exactly where each entry can be reached by the
steps of some balancer. Then every entry has a balancer that can reach it. -/
theorem generateLut_finished_iff (hlbs : lbs ≤ emptySlot) (hL : 1 < lutLen) (hdvd : lutLen ∣ 2^64) :
    ((∃ fuel lut, generateLut h0 h1 lbs lutLen fuel = some lut) ↔
      ∀ c, c < lutLen → ∃ i, i < lbs ∧
        h1 i%lutLen ≡ c [MOD Nat.gcd (h0 i%(lutLen-1)+1) lutLen]) ∧
    ∀ fuel lut, generateLut h0 h1 lbs lutLen fuel = some lut →
      ∀ c, c < lutLen → lut c < lbs ∧
        h1 (lut c)%lutLen ≡ c [MOD Nat.gcd (h0 (lut c)%(lutLen-1)+1) lutLen] := by
  have hpos : 0 < (computeOffsetAndSkip h0 h1 lbs lutLen).lutLen := Nat.zero_lt_of_lt hL
  have hright : ∀ fuel lut, generateLut h0 h1 lbs lutLen fuel = some lut →
      ∀ c, c < lutLen → lut c < lbs ∧
        h1 (lut c)%lutLen ≡ c [MOD Nat.gcd (h0 (lut c)%(lutLen-1)+1) lutLen] := by
    intro fuel lut hlut c hc
    obtain ⟨s, hs, rfl⟩ := Option.map_eq_some_iff.mp hlut
    obtain ⟨hinv, hn⟩ := fill_spec hpos hlbs (lutInv_start _) hs
    -- a full count leaves no empty entry
    have hfull : s.lut c ≠ emptySlot := by
      intro hempty
      have hmem : c ∈ (Finset.range lutLen).filter (fun c => s.lut c = emptySlot) :=
        Finset.mem_filter.mpr ⟨Finset.mem_range.mpr hc, hempty⟩
      have hcard := Finset.card_pos.mpr ⟨c, hmem⟩
      have hcount : s.n+((Finset.range lutLen).filter (fun c => s.lut c = emptySlot)).card = lutLen :=
        hinv.count
      have hn : lutLen ≤ s.n := hn
      omega
    obtain ⟨hlt, hprobes⟩ := hinv.owner c hc hfull
    exact ⟨hlt, (probes_iff hdvd hc).mp hprobes⟩
  refine ⟨⟨?_, ?_⟩, hright⟩
  · rintro ⟨fuel, lut, hlut⟩ c hc
    exact ⟨lut c, hright fuel lut hlut c hc⟩
  · intro hcover
    have hcover' : ∀ c, c < (computeOffsetAndSkip h0 h1 lbs lutLen).lutLen →
        ∃ i, i < lbs ∧ Probes (computeOffsetAndSkip h0 h1 lbs lutLen) i c := by
      intro c hc
      obtain ⟨i, hi, hmod⟩ := hcover c hc
      exact ⟨i, hi, (probes_iff hdvd hc).mpr hmod⟩
    obtain ⟨i, hi, -⟩ := hcover 0 hpos
    obtain ⟨s, hs⟩ := fill_returns hpos hlbs hcover' (d := 0) (lutInv_start _) hi (fun _ => rfl)
      (Nat.lt_succ_self _)
    exact ⟨_, _, Option.map_eq_some_iff.mpr ⟨s, hs, rfl⟩⟩

/-- Two balancers, one of which steps by 2, fill four entries; alone that one never does. -/
theorem generateLut_finished_small :
    (∃ fuel lut, generateLut (fun i => i+1) (fun _ => 0) 2 4 fuel = some lut) ∧
      ∀ fuel, generateLut (fun i => i+1) (fun _ => 0) 1 4 fuel = none := by
  have hdvd : 4 ∣ 2^64 := ⟨2^62, by norm_num⟩
  constructor
  · apply (generateLut_finished_iff (by decide) (by decide) hdvd).1.mpr
    intro c hc
    refine ⟨1, by decide, ?_⟩
    exact Nat.modEq_one
  · intro fuel
    by_contra hne
    obtain ⟨lut, hlut⟩ := Option.ne_none_iff_exists'.mp hne
    obtain ⟨i, hi, hmod⟩ := (generateLut_finished_iff (by decide) (by decide) hdvd).1.mp
      ⟨fuel, lut, hlut⟩ 1 (by decide)
    have hi0 : i = 0 := by omega
    subst hi0
    revert hmod
    decide

end Result
end GenerateLut
end Tasvir
