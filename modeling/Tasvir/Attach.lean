import Mathlib.Data.List.TakeWhile
import Mathlib.Tactic
import Tasvir.Container

/-! Looking areas up by their path. `tasvir_new` takes any 32 bytes for a name, and `tasvir_attach`
copies a path into a buffer, cuts it at slashes with `strtok` and follows the pieces from the
root. Strings are lists of bytes without the NUL at their end. -/
namespace Tasvir

/-- The character `/`. -/
def slash : UInt8 := 47

/-- The bytes that a pointer to the string leads to. -/
def charsOf (s : List UInt8) : ℕ → UInt8 := fun i => s.getD i 0

/-- The string in at most `n` bytes from `i` on. -/
def cstrn (a : ℕ → UInt8) (i : ℕ) : ℕ → List UInt8
  | 0 => []
  | n+1 => if a i = 0 then [] else a i :: cstrn a (i+1) n

/-- The string in a `tasvir_str`, which has no NUL when all 32 bytes are used. -/
def Str.cstr (s : Str) : List UInt8 := cstrn s.chars 0 32

/-- The pieces between slashes, with several slashes in a row counted as one. -/
def components (s : List UInt8) : List (List UInt8) := (s.splitOn slash).filter (· ≠ [])

/-- One call of `strtok(.., "/")`: the token and where the next call goes on. -/
def strtok (s : List UInt8) : Option (List UInt8 × List UInt8) :=
  match s.dropWhile (· = slash) with
  | [] => none
  | b :: s => some ((b :: s).takeWhile (· ≠ slash), ((b :: s).dropWhile (· ≠ slash)).drop 1)

/-- `strncpy`: cut, or filled up with NULs. -/
def strncpy (src : List UInt8) (n : ℕ) : List UInt8 :=
  src.take n ++ List.replicate (n-src.length) 0

/-- `tasvir_area_normalize_name`. -/
def tasvirAreaNormalizeName (name : List UInt8) (bufSize : ℕ) : List UInt8 :=
  slash :: strncpy (name.drop (if name.head? = some slash then 1 else 0)) (bufSize-1)

/-- The string in `name_` of `tasvir_attach`. Without a NUL in the buffer it goes on with what
comes next on the stack. -/
def bufferedName (stack name : List UInt8) : List UInt8 :=
  (tasvirAreaNormalizeName name 256 ++ stack).takeWhile (· ≠ 0)

theorem components_cons_slash (s : List UInt8) : components (slash :: s) = components s := by
  simp [components, List.splitOn_cons_eq_if_modifyHead]

theorem components_dropWhile (s : List UInt8) :
    components (s.dropWhile (· = slash)) = components s := by
  induction s with
  | nil => rfl
  | cons b s ih =>
    by_cases hb : b = slash
    · rw [List.dropWhile_cons_of_pos (by simpa using hb), ih, hb, components_cons_slash]
    · rw [List.dropWhile_cons_of_neg (by simpa using hb)]

theorem strtok_eq_none {s : List UInt8} (h : strtok s = none) : components s = [] := by
  unfold strtok at h
  split at h
  case h_1 hs => rw [← components_dropWhile, hs]; rfl
  case h_2 => cases h

/-- A string that does not start with a slash starts with its first component. -/
theorem components_cons {b : UInt8} (hb : b ≠ slash) (s : List UInt8) :
    components (b :: s) = (b :: s).takeWhile (· ≠ slash) ::
      components (((b :: s).dropWhile (· ≠ slash)).drop 1) := by
  have hnot : slash ∉ (b :: s).takeWhile (· ≠ slash) := by
    intro hmem
    simpa using List.mem_takeWhile_imp hmem
  have hne : (b :: s).takeWhile (· ≠ slash) ≠ [] := by simp [hb]
  have hsplit := List.takeWhile_append_dropWhile (p := fun x => decide (x ≠ slash)) (l := b :: s)
  cases hd : (b :: s).dropWhile (· ≠ slash) with
  | nil =>
    rw [hd, List.append_nil] at hsplit
    rw [hsplit] at hnot ⊢
    simp [components, List.splitOn_eq_singleton hnot]
  | cons c rest =>
    have hc : c = slash := by
      have hhead := List.head?_dropWhile_not (fun x => decide (x ≠ slash)) (b :: s)
      rw [hd] at hhead
      simpa using hhead
    rw [hd, hc] at hsplit
    rw [← hsplit, components, List.splitOn_append_cons_self_of_not_mem hnot]
    rw [hsplit, List.filter_cons_of_pos (by simpa using hne)]
    rfl

/-- A token is the first component, and the others are left. -/
theorem strtok_eq_some {s tok rest : List UInt8} (h : strtok s = some (tok, rest)) :
    components s = tok :: components rest ∧ rest.length < s.length := by
  unfold strtok at h
  split at h
  case h_1 => cases h
  case h_2 b s' hs =>
    cases h
    have hb : b ≠ slash := by
      intro hb
      have hhead := List.head?_dropWhile_not (fun x => decide (x = slash)) s
      rw [hs] at hhead
      simp [hb] at hhead
    refine ⟨?_, ?_⟩
    · rw [← components_dropWhile, hs, components_cons hb]
    · have hlen := (List.dropWhile_suffix (l := s) (fun x => decide (x = slash))).length_le
      have hlen' := (List.dropWhile_suffix (l := s') (fun x => decide (x ≠ slash))).length_le
      rw [hs, List.length_cons] at hlen
      rw [List.length_drop, List.dropWhile_cons_of_pos (by simpa using hb)]
      omega

namespace AreaTree

/-- `tasvir_area_get_by_name`, with areas named by the indices that lead to them. -/
def getByName (s : AreaTree) (pd : Option (List ℕ)) (name : List UInt8) : Option (List ℕ) :=
  match pd with
  | none => (tasvirAreaGetByName none (charsOf name)).map fun _ => []
  | some path => (s.areas path).bind fun ct =>
    (tasvirAreaGetByName (some ct) (charsOf name)).map fun
      | .root => []
      | .child i => path++[i]

/-- The loop of `tasvir_attach`, when every subscription succeeds. -/
def attachLoop (s : AreaTree) (pd : Option (List ℕ)) (tok rest : List UInt8) : Option (List ℕ) :=
  match s.getByName pd tok with
  | none => none
  | some d =>
    match _h : strtok rest with
    | none => some d
    | some (tok, rest) => attachLoop s (some d) tok rest
termination_by rest.length
decreasing_by exact (strtok_eq_some _h).2

/-- `tasvir_attach`. -/
def tasvirAttach (s : AreaTree) (stack name : List UInt8) : Option (List ℕ) :=
  match strtok (bufferedName stack name) with
  | some (tok, rest) => s.attachLoop (some []) tok rest
  -- `strtok` has returned NULL, and does so again
  | none => s.attachLoop none [slash] []

/-- The names of the areas from below `base` to the one that the indices lead to, if there is
one. -/
def pathNames (s : AreaTree) (base : List ℕ) : List ℕ → Option (List (List UInt8))
  | [] => some []
  | i :: is => (s.areas base).bind fun ct =>
    if i < ct.nrAreas then (s.pathNames (base++[i]) is).map ((ct.c i).name.cstr :: ·) else none

end AreaTree

/-- A container that can be searched, with different names in it. -/
structure Container.Named (ct : Container) : Prop where
  type : ct.desc.type = .container
  h_ne : ct.desc.h ≠ 0
  d_ne : ct.d ≠ 0
  names : ∀ i j, i < j → j < ct.nrAreas → (ct.c i).name.cstr ≠ (ct.c j).name.cstr

/-- Trees built by `tasvir_new` from an empty root, with any names and sizes. A call that would
place a header at address 0 faults. -/
def attachSystem : Machine.System AreaTree NewCall where
  init := fun s => ∃ ct, ct.Named ∧ ct.nrAreas = 0 ∧
    s.areas = Function.update (fun _ => none) [] (some ct)
  pre := fun s a => ∃ ct, s.areas a.path = some ct ∧ ct.nextH ≠ 0 ∧
    u64 (ct.data+ct.nrAreas*sizeofDesc) ≠ 0
  next := AreaTree.tasvirNew

/-- `strncmp` compares the strings in the first `n` bytes. -/
theorem strncmp_eq_zero_iff (a b : ℕ → UInt8) (i n : ℕ) :
    strncmp a b i n = 0 ↔ cstrn a i n = cstrn b i n := by
  induction n generalizing i with
  | zero => simp [strncmp, cstrn]
  | succ n ih =>
    unfold strncmp cstrn
    by_cases hab : a i = b i
    · by_cases h0 : b i = 0
      · simp [hab, h0]
      · simp [hab, h0, ih]
    · have hne : ((a i).toNat : ℤ)-(b i).toNat ≠ 0 := by
        intro h
        apply hab
        apply UInt8.toNat_inj.mp
        omega
      simp only [ne_eq, hab, not_false_eq_true, ↓reduceIte, hne, false_iff]
      intro h
      split at h <;> split at h <;> simp_all

theorem cstrn_charsOf {s : List UInt8} (h0 : 0 ∉ s) (i n : ℕ) :
    cstrn (charsOf s) i n = (s.drop i).take n := by
  induction n generalizing i with
  | zero => simp [cstrn]
  | succ n ih =>
    unfold cstrn
    rcases Nat.lt_or_ge i s.length with hi | hi
    · have hget : charsOf s i = s[i] := by simp [charsOf, hi]
      have hne : s[i] ≠ 0 := by
        intro h
        exact h0 (h ▸ List.getElem_mem hi)
      rw [hget, if_neg hne, ih, List.drop_eq_getElem_cons hi, List.take_succ_cons]
    · have hget : charsOf s i = 0 := by simp [charsOf, hi]
      rw [if_pos hget, List.drop_eq_nil_of_le hi, List.take_nil]

theorem cstrn_spec (a : ℕ → UInt8) (i n : ℕ) : 0 ∉ cstrn a i n ∧ (cstrn a i n).length ≤ n := by
  induction n generalizing i with
  | zero => simp [cstrn]
  | succ n ih =>
    unfold cstrn
    split
    · simp
    case isFalse h0 =>
      obtain ⟨hmem, hlen⟩ := ih (i+1)
      simp only [List.mem_cons, List.length_cons]
      exact ⟨by simp [Ne.symm h0, hmem], by omega⟩

theorem Str.zero_not_mem_cstr (n : Str) : 0 ∉ n.cstr := (cstrn_spec _ _ _).1

theorem Str.length_cstr_le (n : Str) : n.cstr.length ≤ 32 := (cstrn_spec _ _ _).2

section
variable {ct : Container} {s : AreaTree}

/-- A search finds the child whose name is the first 32 bytes of what is looked for. -/
theorem Container.Named.getByName_iff (hn : ct.Named) {name : List UInt8} (h0 : 0 ∉ name)
    (r : FoundArea) : tasvirAreaGetByName (some ct) (charsOf name) = some r ↔
      ∃ i < ct.nrAreas, r = .child i ∧ (ct.c i).name.cstr = name.take 32 := by
  have hguard : ct.desc.type = .container ∧ ct.desc.h ≠ 0 ∧ ct.d ≠ 0 := ⟨hn.type, hn.h_ne, hn.d_ne⟩
  have hmatch : ∀ i, strncmp (ct.c i).name.chars (charsOf name) 0 32 = 0 ↔
      (ct.c i).name.cstr = name.take 32 := by
    intro i
    rw [strncmp_eq_zero_iff, cstrn_charsOf h0, List.drop_zero, Str.cstr]
  simp only [tasvirAreaGetByName, hguard, ne_eq, not_false_eq_true, and_self, ↓reduceIte,
    Option.map_eq_some_iff, List.find?_range_eq_some, decide_eq_true_eq, hmatch]
  constructor
  · rintro ⟨i, ⟨hi, hmem, -⟩, rfl⟩
    exact ⟨i, List.mem_range.mp hmem, rfl, hi⟩
  · rintro ⟨i, hi, rfl, hname⟩
    refine ⟨i, ⟨hname, List.mem_range.mpr hi, ?_⟩, rfl⟩
    intro j hj
    have hne := hn.names j i hj hi
    simp only [Bool.not_eq_true', decide_eq_false_iff_not]
    rwa [← hname]

/-- The areas that the components lead to, from `base` on. -/
def AreaTree.resolve (s : AreaTree) (base : List ℕ) (toks : List (List UInt8)) : Option (List ℕ) :=
  toks.foldlM (fun path tok => s.getByName (some path) tok) base

theorem AreaTree.resolve_cons (base : List ℕ) (tok : List UInt8) (toks : List (List UInt8)) :
    s.resolve base (tok :: toks) = (s.getByName (some base) tok).bind fun d => s.resolve d toks := by
  rw [AreaTree.resolve, List.foldlM_cons]
  rfl

theorem AreaTree.attachLoop_eq (pd : Option (List ℕ)) (tok rest : List UInt8) :
    s.attachLoop pd tok rest =
      (s.getByName pd tok).bind fun d => s.resolve d (components rest) := by
  induction hn : rest.length using Nat.strong_induction_on generalizing pd tok rest with
  | _ n ih =>
    rw [AreaTree.attachLoop]
    cases hd : s.getByName pd tok with
    | none => rfl
    | some d =>
      simp only [Option.bind_some]
      split
      case h_1 hnone =>
        rw [strtok_eq_none hnone]
        rfl
      case h_2 tok' rest' hsome =>
        obtain ⟨hcomp, hlen⟩ := strtok_eq_some hsome
        rw [ih rest'.length (by omega) _ _ _ rfl, hcomp, AreaTree.resolve_cons]

/-- `tasvir_attach` follows the components of the string in its buffer from the root. -/
theorem AreaTree.tasvirAttach_eq (stack name : List UInt8) :
    s.tasvirAttach stack name = s.resolve [] (components (bufferedName stack name)) := by
  unfold AreaTree.tasvirAttach
  split
  case h_1 tok rest hsome =>
    rw [(strtok_eq_some hsome).1, AreaTree.attachLoop_eq, AreaTree.resolve_cons]
  case h_2 hnone =>
    rw [strtok_eq_none hnone, AreaTree.attachLoop_eq]
    rfl

/-- Every container of the tree can be searched. -/
def NamedTree (s : AreaTree) : Prop := ∀ path ct, s.areas path = some ct → ct.Named

theorem NamedTree.getByName_iff (hs : NamedTree s) {tok : List UInt8} (h0 : 0 ∉ tok)
    (path d : List ℕ) : s.getByName (some path) tok = some d ↔
      ∃ ct i, s.areas path = some ct ∧ i < ct.nrAreas ∧ d = path++[i] ∧
        (ct.c i).name.cstr = tok.take 32 := by
  cases hct : s.areas path with
  | none => simp [AreaTree.getByName, hct]
  | some ct =>
    simp only [AreaTree.getByName, hct, Option.bind_some, Option.map_eq_some_iff,
      (hs path ct hct).getByName_iff h0]
    constructor
    · rintro ⟨r, ⟨i, hi, rfl, hname⟩, rfl⟩
      exact ⟨ct, i, rfl, hi, rfl, hname⟩
    · rintro ⟨ct', i, hct', hi, rfl, hname⟩
      cases hct'
      exact ⟨.child i, ⟨i, hi, rfl, hname⟩, rfl⟩

/-- The components lead to an area exactly when, cut to 32 bytes, they are the names on its
path. -/
theorem NamedTree.resolve_iff (hs : NamedTree s) (toks : List (List UInt8))
    (h0 : ∀ tok ∈ toks, 0 ∉ tok) (base d : List ℕ) : s.resolve base toks = some d ↔
      ∃ is, d = base++is ∧ s.pathNames base is = some (toks.map (List.take 32)) := by
  -- each component takes one step down the tree
  induction toks generalizing base with
  | nil =>
    simp only [AreaTree.resolve, List.foldlM_nil, List.map_nil]
    constructor
    · intro h
      cases h
      exact ⟨[], by simp, rfl⟩
    · rintro ⟨is, rfl, hnames⟩
      cases is with
      | nil => simp
      | cons i is =>
        simp only [AreaTree.pathNames, Option.bind_eq_some_iff] at hnames
        obtain ⟨ct, -, hif⟩ := hnames
        split at hif
        · simp at hif
        · cases hif
  | cons tok toks ih =>
    have ih' := ih (fun t ht => h0 t (List.mem_cons_of_mem _ ht))
    have hstep := hs.getByName_iff (h0 tok List.mem_cons_self) base
    rw [AreaTree.resolve_cons]
    constructor
    · intro h
      obtain ⟨d1, h1, h2⟩ := Option.bind_eq_some_iff.mp h
      obtain ⟨ct, i, hct, hi, rfl, hname⟩ := (hstep d1).mp h1
      obtain ⟨is, rfl, hnames⟩ := (ih' _).mp h2
      refine ⟨i :: is, by simp, ?_⟩
      simp [AreaTree.pathNames, hct, hi, hnames, hname]
    · rintro ⟨is, rfl, hnames⟩
      cases is with
      | nil => simp [AreaTree.pathNames] at hnames
      | cons i is =>
        simp only [AreaTree.pathNames, Option.bind_eq_some_iff] at hnames
        obtain ⟨ct, hct, hif⟩ := hnames
        split at hif
        case isTrue hi =>
          obtain ⟨ns, hns, heq⟩ := Option.map_eq_some_iff.mp hif
          rw [List.map_cons, List.cons.injEq] at heq
          obtain ⟨hname, rfl⟩ := heq
          refine Option.bind_eq_some_iff.mpr ⟨base++[i], ?_, ?_⟩
          · exact (hstep _).mpr ⟨ct, i, hct, hi, rfl, hname⟩
          · exact (ih' _).mpr ⟨is, by simp, hns⟩
        case isFalse => cases hif

theorem AreaTree.mem_pathNames {base is : List ℕ} {ns : List (List UInt8)}
    (h : s.pathNames base is = some ns) : ∀ n ∈ ns, 0 ∉ n ∧ n.length ≤ 32 := by
  induction is generalizing base ns with
  | nil =>
    cases h
    simp
  | cons i is ih =>
    simp only [AreaTree.pathNames, Option.bind_eq_some_iff] at h
    obtain ⟨ct, -, hif⟩ := h
    split at hif
    case isTrue =>
      obtain ⟨ns', hns, rfl⟩ := Option.map_eq_some_iff.mp hif
      intro n hn
      rcases List.mem_cons.mp hn with rfl | hn
      · exact ⟨Str.zero_not_mem_cstr _, Str.length_cstr_le _⟩
      · exact ih hns n hn
    case isFalse => cases hif

/-- A new name is none of those that the container has. -/
theorem Container.Named.push (hn : ct.Named) {x : Desc} (hname : ct.hasName x.name = false) :
    Container.Named
      { ct with nrAreas := ct.nrAreas+1, c := Function.update ct.c ct.nrAreas x } := by
  refine ⟨hn.type, hn.h_ne, hn.d_ne, ?_⟩
  intro i j hij hj
  simp only at hj ⊢
  rw [Function.update_of_ne (by omega)]
  by_cases hjn : j = ct.nrAreas
  · rw [hjn, Function.update_self]
    intro he
    exact Container.hasName_eq_false.mp hname i (by omega) ((strncmp_eq_zero_iff _ _ _ _).mpr he)
  · rw [Function.update_of_ne hjn]
    exact hn.names i j hij (by omega)

theorem NamedTree.tasvirNew (hs : NamedTree s) (a : NewCall) (hp : attachSystem.pre s a) :
    NamedTree (s.tasvirNew a) := by
  obtain ⟨ct, hct, hh, hd⟩ := hp
  have hn := hs _ _ hct
  rcases s.tasvirNew_cases a ct hct with hr | ⟨x, log, -, hname, -, hxh, -, -, -, -, hr⟩
  · rw [hr]
    exact hs
  · have hpush := hn.push hname
    have hupdate : ∀ path ct', Function.update s.areas a.path
        (some { ct with nrAreas := ct.nrAreas+1, c := Function.update ct.c ct.nrAreas x }) path =
        some ct' → ct'.Named := by
      intro path ct' h
      by_cases hpath : path = a.path
      · rw [hpath, Function.update_self] at h
        cases h
        exact hpush
      · rw [Function.update_of_ne hpath] at h
        exact hs path ct' h
    rw [hr]
    intro path ct' h
    simp only at h
    split at h
    case isTrue htype =>
      by_cases hpath : path = a.path++[ct.nrAreas]
      · rw [hpath, Function.update_self] at h
        cases h
        exact ⟨htype, hxh ▸ hh, hd, fun i j _ hj => by simp [Container.created] at hj⟩
      · rw [Function.update_of_ne hpath] at h
        exact hupdate path ct' h
    case isFalse => exact hupdate path ct' h

theorem namedTree_reachable (h : attachSystem.Reachable s) : NamedTree s := by
  apply h.invariant
  · rintro s ⟨ct, hn, -, hs⟩ path ct' hct
    rw [hs] at hct
    by_cases hpath : path = []
    · rw [hpath, Function.update_self] at hct
      cases hct
      exact hn
    · rw [Function.update_of_ne hpath] at hct
      cases hct
  · intro s a hs hp
    exact hs.tasvirNew a hp

end

/-- The path of an area with these names above it and its own at the end. -/
def pathString (ns : List (List UInt8)) : List UInt8 := [slash].intercalate ns

/-- What `tasvir_attach` compares with names: the components in its buffer, 32 bytes of each. -/
def comparedNames (stack name : List UInt8) : List (List UInt8) :=
  (components (bufferedName stack name)).map (List.take 32)

/-- The string without the slash at its start. -/
def withoutSlash (name : List UInt8) : List UInt8 :=
  name.drop (if name.head? = some slash then 1 else 0)

theorem components_withoutSlash (name : List UInt8) :
    components (withoutSlash name) = components name := by
  unfold withoutSlash
  cases name with
  | nil => rfl
  | cons b s =>
    by_cases hb : b = slash
    · simp [hb, components_cons_slash]
    · simp [hb]

/-- A string that leaves room for a NUL is copied as a whole. -/
theorem bufferedName_eq {name : List UInt8} (h0 : 0 ∉ name)
    (hlen : (withoutSlash name).length < 255) (stack : List UInt8) :
    bufferedName stack name = slash :: withoutSlash name := by
  have hcopy : strncpy (withoutSlash name) 255 =
      withoutSlash name ++ 0 :: List.replicate (254-(withoutSlash name).length) 0 := by
    rw [strncpy, List.take_of_length_le hlen.le, ← List.replicate_succ]
    congr 2
    omega
  have hall : ∀ b ∈ slash :: withoutSlash name, decide (b ≠ 0) = true := by
    intro b hb
    rcases List.mem_cons.mp hb with rfl | hb
    · decide
    · have hmem := List.mem_of_mem_drop hb
      simp only [ne_eq, decide_not, Bool.not_eq_true', decide_eq_false_iff_not]
      rintro rfl
      exact h0 hmem
  change ((slash :: strncpy (withoutSlash name) 255) ++ stack).takeWhile (· ≠ 0) = _
  rw [hcopy, ← List.cons_append, List.append_assoc, List.takeWhile_append_of_pos hall]
  simp

theorem comparedNames_eq {name : List UInt8} (h0 : 0 ∉ name)
    (hlen : (withoutSlash name).length < 255) (stack : List UInt8) :
    comparedNames stack name = (components name).map (List.take 32) := by
  rw [comparedNames, bufferedName_eq h0 hlen, components_cons_slash, components_withoutSlash]

theorem mem_splitOn {s c : List UInt8} (hc : c ∈ s.splitOn slash) :
    slash ∉ c ∧ ∀ b ∈ c, b ∈ s := by
  induction s generalizing c with
  | nil =>
    simp only [List.splitOn_nil, List.mem_singleton] at hc
    simp [hc]
  | cons x s ih =>
    rw [List.splitOn_cons_eq_if_modifyHead] at hc
    by_cases hx : x = slash
    · simp only [hx, beq_self_eq_true, ↓reduceIte, List.mem_cons] at hc
      rcases hc with rfl | hc
      · simp
      · exact ⟨(ih hc).1, fun b hb => List.mem_cons_of_mem _ ((ih hc).2 b hb)⟩
    · simp only [beq_iff_eq, hx, ↓reduceIte] at hc
      cases hs : s.splitOn slash with
      | nil => simp [hs] at hc
      | cons d ds =>
        rw [hs, List.modifyHead_cons, List.mem_cons] at hc
        rcases hc with rfl | hc
        · have hd := ih (c := d) (by simp [hs])
          refine ⟨by simp [Ne.symm hx, hd.1], ?_⟩
          intro b hb
          rcases List.mem_cons.mp hb with rfl | hb
          · exact List.mem_cons_self
          · exact List.mem_cons_of_mem _ (hd.2 b hb)
        · have hd := ih (c := c) (by simp [hs, hc])
          exact ⟨hd.1, fun b hb => List.mem_cons_of_mem _ (hd.2 b hb)⟩

theorem mem_components {s c : List UInt8} (hc : c ∈ components s) :
    c ≠ [] ∧ slash ∉ c ∧ ∀ b ∈ c, b ∈ s := by
  obtain ⟨hmem, hne⟩ := List.mem_filter.mp hc
  exact ⟨by simpa using hne, mem_splitOn hmem⟩

theorem mem_pathString {ns : List (List UInt8)} {b : UInt8} (hb : b ∈ pathString ns) :
    b = slash ∨ ∃ n ∈ ns, b ∈ n := by
  unfold pathString at hb
  induction ns with
  | nil => simp at hb
  | cons n ns ih =>
    cases ns with
    | nil => exact .inr ⟨n, List.mem_cons_self, by simpa using hb⟩
    | cons m ms =>
      rw [List.intercalate_cons_cons, List.mem_append, List.mem_append] at hb
      rcases hb with (hb | hb) | hb
      · exact .inr ⟨n, List.mem_cons_self, hb⟩
      · exact .inl (by simpa using hb)
      · rcases ih hb with h | ⟨k, hk, hbk⟩
        · exact .inl h
        · exact .inr ⟨k, List.mem_cons_of_mem _ hk, hbk⟩

theorem components_pathString {ns : List (List UInt8)} (h : ∀ n ∈ ns, n ≠ [] ∧ slash ∉ n) :
    components (pathString ns) = ns := by
  unfold components pathString
  by_cases hnil : ns = []
  · simp [hnil]
  · rw [List.splitOn_intercalate slash (fun n hn => (h n hn).2) hnil, List.filter_eq_self]
    intro n hn
    simpa using (h n hn).1

theorem map_take_eq {cs : List (List UInt8)} (h : ∀ c ∈ cs, c.length ≤ 32) :
    cs.map (List.take 32) = cs := by
  calc cs.map (List.take 32) = cs.map id := by
        apply List.map_congr_left
        intro c hc
        exact List.take_of_length_le (h c hc)
    _ = cs := List.map_id cs

/-- `tasvir_attach` returns the area whose path has the names that it compares. -/
theorem NamedTree.tasvirAttach_iff {s : AreaTree} (hs : NamedTree s) (stack name : List UInt8)
    (path : List ℕ) : s.tasvirAttach stack name = some path ↔
      s.pathNames [] path = some (comparedNames stack name) := by
  have h0 : ∀ tok ∈ components (bufferedName stack name), 0 ∉ tok := by
    intro tok htok hmem
    have hin := (mem_components htok).2.2 0 hmem
    simpa using List.mem_takeWhile_imp hin
  rw [AreaTree.tasvirAttach_eq, hs.resolve_iff _ h0]
  simp [comparedNames]

/-- The path of an area is found exactly when no name on it is empty or has a slash. -/
theorem NamedTree.attach_path_iff {s : AreaTree} (hs : NamedTree s) (stack : List UInt8)
    {path : List ℕ} {ns : List (List UInt8)} (hpath : s.pathNames [] path = some ns)
    (hlen : (pathString ns).length < 255) :
    (s.tasvirAttach stack (pathString ns) = some path ∧
      s.tasvirAttach stack (slash :: pathString ns) = some path) ↔
    ∀ n ∈ ns, n ≠ [] ∧ slash ∉ n := by
  have hmem := AreaTree.mem_pathNames hpath
  have h0 : 0 ∉ pathString ns := by
    intro h
    rcases mem_pathString h with h | ⟨n, hn, h⟩
    · exact absurd h (by decide)
    · exact (hmem n hn).1 h
  have hplain : comparedNames stack (pathString ns) =
      (components (pathString ns)).map (List.take 32) := by
    apply comparedNames_eq h0
    rw [withoutSlash, List.length_drop]
    omega
  have hslash : comparedNames stack (slash :: pathString ns) =
      (components (pathString ns)).map (List.take 32) := by
    rw [comparedNames_eq (by simpa [slash] using h0) (by simpa [withoutSlash] using hlen),
      components_cons_slash]
  rw [hs.tasvirAttach_iff, hs.tasvirAttach_iff, hplain, hslash, and_self, hpath, Option.some.injEq]
  constructor
  · intro heq n hn
    rw [heq] at hn
    obtain ⟨c, hc, rfl⟩ := List.mem_map.mp hn
    obtain ⟨hne, hnot, -⟩ := mem_components hc
    exact ⟨by simpa using hne, fun h => hnot (List.mem_of_mem_take h)⟩
  · intro hgood
    rw [components_pathString hgood]
    exact (map_take_eq fun n hn => (hmem n hn).2).symm

/-- What creation and look-up agree on. The path of an area leads to it exactly when no name on it
is empty or has a slash. A string that leads to an area has the names on its path as components
unless what is compared is something else: for strings that fit in the buffer, when a component
has more than 32 bytes. -/
theorem attach_agrees_iff (s : AreaTree) (h : attachSystem.Reachable s) (stack : List UInt8) :
    (∀ path ns, s.pathNames [] path = some ns → (pathString ns).length < 255 →
      ((s.tasvirAttach stack (pathString ns) = some path ∧
        s.tasvirAttach stack (slash :: pathString ns) = some path) ↔
      ∀ n ∈ ns, n ≠ [] ∧ slash ∉ n)) ∧
    (∀ name, 0 ∉ name →
      ((∀ path, s.tasvirAttach stack name = some path →
        s.pathNames [] path = some (components name)) ↔
      comparedNames stack name = components name ∨
        ∀ path, s.pathNames [] path ≠ some (comparedNames stack name))) ∧
    (∀ name, 0 ∉ name → (withoutSlash name).length < 255 →
      (comparedNames stack name = components name ↔ ∀ c ∈ components name, c.length ≤ 32)) := by
  have hs := namedTree_reachable h
  refine ⟨?_, ?_, ?_⟩
  · intro path ns hpath hlen
    exact hs.attach_path_iff stack hpath hlen
  · intro name _
    simp only [hs.tasvirAttach_iff]
    constructor
    · intro hall
      by_cases hex : ∃ path, s.pathNames [] path = some (comparedNames stack name)
      · obtain ⟨path, hp⟩ := hex
        left
        have heq := hall path hp
        rw [hp] at heq
        exact Option.some.inj heq
      · right
        intro path hp
        exact hex ⟨path, hp⟩
    · rintro (heq | hno) path hp
      · rw [← heq]
        exact hp
      · exact absurd hp (hno path)
  · intro name h0 hlen
    rw [comparedNames_eq h0 hlen]
    constructor
    · intro heq c hc
      rw [← heq] at hc
      obtain ⟨c', -, rfl⟩ := List.mem_map.mp hc
      exact List.length_take_le _ _
    · intro hle
      exact map_take_eq hle

/-- A root with one area. -/
def oneArea (name : Str) : AreaTree :=
  AreaTree.tasvirNew ⟨fun _ => 0, Function.update (fun _ => none) [] (some exampleRoot)⟩
    { path := [], env := exampleEnv, desc := { len := 100, name } }

theorem exampleRoot_reachable : attachSystem.Reachable
    ⟨fun _ => 0, Function.update (fun _ => none) [] (some exampleRoot)⟩ := by
  have hnamed : exampleRoot.Named :=
    ⟨by decide +kernel, by decide +kernel, by decide +kernel,
      fun i j _ hj => absurd hj (Nat.not_lt_zero j)⟩
  exact .init ⟨exampleRoot, hnamed, rfl, rfl⟩

theorem oneArea_reachable (name : Str) : attachSystem.Reachable (oneArea name) := by
  have hroot : exampleRoot.nextH ≠ 0 ∧
      u64 (exampleRoot.data+exampleRoot.nrAreas*sizeofDesc) ≠ 0 := by decide +kernel
  exact exampleRoot_reachable.step
    (a := { path := [], env := exampleEnv, desc := { len := 100, name } })
    ⟨exampleRoot, rfl, hroot⟩

/-- The name `a`. -/
def nameA : Str := (Vector.replicate 32 0).set 0 97

/-- The name `a/b`. -/
def nameSlash : Str := (((Vector.replicate 32 0).set 0 97).set 1 47).set 2 98

/-- The name `b`. -/
def nameB : Str := (Vector.replicate 32 0).set 0 98

/-- A container `a`, and in it an area `b`. -/
def nestedCalls : List NewCall :=
  [{ path := [], env := exampleEnv
     desc := { len := 2^18, nrAreasMax := 2, name := nameA, type := .container } },
   { path := [0], env := exampleEnv, desc := { len := 100, name := nameB } }]

/-- The tree after these calls. -/
def nestedAreas : AreaTree :=
  nestedCalls.foldl AreaTree.tasvirNew
    ⟨fun _ => 0, Function.update (fun _ => none) [] (some exampleRoot)⟩

theorem nestedAreas_reachable : attachSystem.Reachable nestedAreas :=
  exampleRoot_reachable.run nestedCalls
    ⟨⟨_, rfl, by decide +kernel, by decide +kernel⟩,
      ⟨_, rfl, by decide +kernel, by decide +kernel⟩, trivial⟩

/-- The area is found as `a/b` and as `/a/b`. -/
theorem attach_agrees_iff_nested :
    attachSystem.Reachable nestedAreas ∧ nestedAreas.tasvirAttach [] [97, 47, 98] = some [0, 0] ∧
      nestedAreas.tasvirAttach [] [47, 97, 47, 98] = some [0, 0] := by
  have hpath : nestedAreas.pathNames [] [0, 0] = some [[97], [98]] := by decide +kernel
  have h := (attach_agrees_iff nestedAreas nestedAreas_reachable []).1 [0, 0] [[97], [98]] hpath
    (by decide)
  exact ⟨nestedAreas_reachable, h.mpr (by decide)⟩

/-- The area exists, and neither form of its path leads to it. -/
theorem slash_in_name_not_found :
    attachSystem.Reachable (oneArea nameSlash) ∧
    (oneArea nameSlash).pathNames [] [0] = some [[97, 47, 98]] ∧
    (oneArea nameSlash).tasvirAttach [] [97, 47, 98] ≠ some [0] ∧
    (oneArea nameSlash).tasvirAttach [] [47, 97, 47, 98] ≠ some [0] := by
  have hpath : (oneArea nameSlash).pathNames [] [0] = some [[97, 47, 98]] := by decide +kernel
  have hs := namedTree_reachable (oneArea_reachable nameSlash)
  refine ⟨oneArea_reachable nameSlash, hpath, ?_, ?_⟩
  · rw [ne_eq, hs.tasvirAttach_iff, hpath]
    decide +kernel
  · rw [ne_eq, hs.tasvirAttach_iff, hpath]
    decide +kernel

end Tasvir
