/-
The order of the replay (`sort_replay_array`).

The records are sorted by time stamp, and an EXEC record goes before a COMMIT record of
the same time.  `comp_replay_entries` returns the difference of two 64-bit time stamps as
an `int`, that is modulo `2 ^ 32`, so it orders only clocks that are close to each other.

* `compReplayEntries_earlier` — when the comparator puts the earlier record first;
* `replay_order_iff` — when it is the lexicographic order on the whole array, and the
  array is then sorted by it;
-/
import TimeStone.Recovery
import Mathlib.Algebra.Group.Nat.Defs

namespace TimeStone.Recovery

/-- The value of the enumeration constant. -/
def ReplayType.toInt32 : ReplayType → Int32
  | exec => 0
  | commit => 1

/-- `comp_replay_entries`.  The difference of the time stamps is an `unsigned long`, and it
is stored into an `int`. -/
def compReplayEntries (x y : ReplayEntry) : Int32 :=
  let d := (x.timeStamp - y.timeStamp).toUInt32.toInt32
  if d = 0 then x.type.toInt32 - y.type.toInt32 else d

/-- What `qsort` asks of a comparator on the elements of the array. -/
structure Consistent {α : Type} (cmp : α → α → Int32) (a : List α) : Prop where
  swap : ∀ x ∈ a, ∀ y ∈ a, cmp x y < 0 ↔ 0 < cmp y x
  trans : ∀ x ∈ a, ∀ y ∈ a, ∀ z ∈ a, cmp x y ≤ 0 → cmp y z ≤ 0 → cmp x z ≤ 0

/-- What `qsort` promises. -/
def QsortSpec (qsort : (ReplayEntry → ReplayEntry → Int32) → List ReplayEntry →
    List ReplayEntry) : Prop :=
  ∀ cmp a, Consistent cmp a → (qsort cmp a).Perm a ∧ (qsort cmp a).Pairwise fun x y => cmp x y ≤ 0

/-- `sort_replay_array`. -/
def sortReplayArray (qsort : (ReplayEntry → ReplayEntry → Int32) → List ReplayEntry →
    List ReplayEntry) (a : List ReplayEntry) : List ReplayEntry :=
  qsort compReplayEntries a

/-- The order of the pairs of time stamp and type. -/
def LexLt (x y : ReplayEntry) : Prop :=
  x.timeStamp < y.timeStamp ∨
    x.timeStamp = y.timeStamp ∧ x.type = .exec ∧ y.type = .commit

/-- The records of every operation have its local clock before its write clock. -/
def OpsOrdered (a : List ReplayEntry) : Prop :=
  ∀ x ∈ a, ∀ y ∈ a, x.context = y.context → x.type = .exec → y.type = .commit →
    x.timeStamp < y.timeStamp

/-- The time stamps of the array can be compared modulo `2 ^ 32`. -/
def Comparable (a : List ReplayEntry) : Prop :=
  ∀ x ∈ a, ∀ y ∈ a, x.timeStamp < y.timeStamp →
    let r := (y.timeStamp.toNat - x.timeStamp.toNat) % 2 ^ 32
    0 < r ∧ r < 2 ^ 31 ∨ r = 0 ∧ x.type = .exec ∧ y.type = .commit

variable {x y : ReplayEntry} {a : List ReplayEntry}

/-! ### The comparator -/

theorem toInt_diff (u v : UInt64) : (u - v).toUInt32.toInt32.toInt =
    Int.bmod ((u.toNat : Int) - (v.toNat : Int)) (2 ^ 32) := by
  rw [← Int32.toInt_toBitVec, UInt32.toBitVec_toInt32, UInt64.toBitVec_toUInt32,
    BitVec.toInt_setWidth, UInt64.toBitVec_sub, BitVec.toNat_sub, Int.bmod_def, Int.bmod_def]
  simp only [UInt64.toNat_toBitVec]
  have hu := u.toNat_lt
  have hv := v.toNat_lt
  -- the borrow is a multiple of `2 ^ 64`, and disappears modulo `2 ^ 32`
  have hmod : (((2 ^ 64 - v.toNat + u.toNat) % 2 ^ 64 : ℕ) : Int) % (2 ^ 32 : ℕ) =
      ((u.toNat : Int) - (v.toNat : Int)) % (2 ^ 32 : ℕ) := by
    omega
  rw [hmod]

/-- The value of the enumeration constant, as an integer. -/
def ReplayType.toInt : ReplayType → Int
  | exec => 0
  | commit => 1

/-- The comparator as a function on integers. -/
theorem toInt_compReplayEntries (x y : ReplayEntry) : (compReplayEntries x y).toInt =
    let d := Int.bmod ((x.timeStamp.toNat : Int) - (y.timeStamp.toNat : Int)) (2 ^ 32)
    if d = 0 then x.type.toInt - y.type.toInt else d := by
  have hzero : (x.timeStamp - y.timeStamp).toUInt32.toInt32 = 0 ↔
      Int.bmod ((x.timeStamp.toNat : Int) - (y.timeStamp.toNat : Int)) (2 ^ 32) = 0 := by
    rw [← Int32.toInt_inj, toInt_diff]
    rfl
  unfold compReplayEntries
  dsimp only
  by_cases h : (x.timeStamp - y.timeStamp).toUInt32.toInt32 = 0
  · rw [if_pos h, if_pos (hzero.mp h)]
    cases x.type <;> cases y.type <;> rfl
  · rw [if_neg h, if_neg fun hd => h (hzero.mpr hd), toInt_diff]

theorem neg_iff (c : Int32) : c < 0 ↔ c.toInt < 0 := Int32.lt_iff_toInt_lt

theorem pos_iff (c : Int32) : 0 < c ↔ 0 < c.toInt := Int32.lt_iff_toInt_lt

/-- Records of the same time are compared by their types. -/
theorem compReplayEntries_same (h : x.timeStamp = y.timeStamp) :
    (compReplayEntries x y).toInt = x.type.toInt - y.type.toInt := by
  rw [toInt_compReplayEntries, h, Int.sub_self]
  rfl

/-- Of two records at different times the earlier one goes first, in both orders of the
arguments, if the times can be compared modulo `2 ^ 32`. -/
theorem compReplayEntries_earlier (hlt : x.timeStamp < y.timeStamp) :
    (compReplayEntries x y < 0 ∧ 0 < compReplayEntries y x) ↔
      let r := (y.timeStamp.toNat - x.timeStamp.toNat) % 2 ^ 32
      0 < r ∧ r < 2 ^ 31 ∨ r = 0 ∧ x.type = .exec ∧ y.type = .commit := by
  rw [UInt64.lt_iff_toNat_lt] at hlt
  rw [neg_iff, pos_iff, toInt_compReplayEntries, toInt_compReplayEntries]
  simp only [Int.bmod_def]
  cases x.type <;> cases y.type <;> simp [ReplayType.toInt] <;> omega

/-! ### The order of the array -/

/-- The comparator is consistent on the array, and it is the lexicographic order. -/
structure IsLexOrder (a : List ReplayEntry) : Prop where
  consistent : Consistent compReplayEntries a
  neg : ∀ x ∈ a, ∀ y ∈ a, compReplayEntries x y < 0 ↔ LexLt x y

/-- The array is sorted by time stamp and type, and every operation is executed before it
commits. -/
structure SortedReplay (b : List ReplayEntry) : Prop where
  sorted : b.Pairwise fun x y => ¬ LexLt y x
  execFirst : ∀ (i j : ℕ) (x y : ReplayEntry), b[i]? = some x → b[j]? = some y →
    x.context = y.context → x.type = .exec → y.type = .commit → i < j

theorem lexLt_or_same (x y : ReplayEntry) :
    LexLt x y ∨ LexLt y x ∨ x.timeStamp = y.timeStamp ∧ x.type = y.type := by
  rcases Nat.lt_trichotomy x.timeStamp.toNat y.timeStamp.toNat with h | h | h
  · exact Or.inl (Or.inl (UInt64.lt_iff_toNat_lt.mpr h))
  · have hts := UInt64.toNat_inj.mp h
    unfold LexLt
    cases x.type <;> cases y.type <;> simp [hts]
  · exact Or.inr (Or.inl (Or.inl (UInt64.lt_iff_toNat_lt.mpr h)))

theorem LexLt.asymm (h : LexLt x y) : ¬ LexLt y x := by
  unfold LexLt at h ⊢
  rw [UInt64.lt_iff_toNat_lt, ← UInt64.toNat_inj] at h ⊢
  rintro (h' | ⟨h', h''⟩)
  · omega
  · rcases h with h | ⟨-, he, -⟩
    · omega
    · rw [he] at h''
      cases h''.2

theorem not_lexLt_trans {z : ReplayEntry} (h : ¬ LexLt y x) (h' : ¬ LexLt z y) : ¬ LexLt z x := by
  unfold LexLt at *
  rw [UInt64.lt_iff_toNat_lt, ← UInt64.toNat_inj] at *
  cases hx : x.type <;> cases hy : y.type <;> cases hz : z.type <;> simp [hx, hy, hz] at * <;> omega

/-- On comparable time stamps the sign of the comparator is the lexicographic order. -/
theorem Comparable.sign (h : Comparable a) (hx : x ∈ a) (hy : y ∈ a) :
    (compReplayEntries x y < 0 ↔ LexLt x y) ∧ (0 < compReplayEntries x y ↔ LexLt y x) := by
  -- a strict order of the records fixes both signs, and equal records compare as equal
  have hlt : ∀ {x y}, x ∈ a → y ∈ a → LexLt x y →
      compReplayEntries x y < 0 ∧ 0 < compReplayEntries y x := by
    intro x y hx hy hlex
    rcases hlex with hts | ⟨hts, he, hc⟩
    · exact (compReplayEntries_earlier hts).mpr (h x hx y hy hts)
    · rw [neg_iff, pos_iff, compReplayEntries_same hts, compReplayEntries_same hts.symm, he, hc]
      decide
  rcases lexLt_or_same x y with hlex | hlex | ⟨hts, hty⟩
  · have hneg := (hlt hx hy hlex).1
    refine ⟨iff_of_true hneg hlex, iff_of_false ?_ hlex.asymm⟩
    rw [neg_iff] at hneg
    rw [pos_iff]
    omega
  · have hpos := (hlt hy hx hlex).2
    refine ⟨iff_of_false ?_ hlex.asymm, iff_of_true hpos hlex⟩
    rw [pos_iff] at hpos
    rw [neg_iff]
    omega
  · have hno : ∀ {x y : ReplayEntry}, x.timeStamp = y.timeStamp → x.type = y.type → ¬ LexLt x y := by
      rintro x y hts hty (h' | ⟨-, he, hc⟩)
      · rw [hts] at h'
        exact UInt64.lt_irrefl _ h'
      · rw [hty, hc] at he
        cases he
    have hz := compReplayEntries_same hts
    rw [hty, Int.sub_self] at hz
    rw [neg_iff, pos_iff, hz]
    exact ⟨iff_of_false (by decide) (hno hts hty), iff_of_false (by decide) (hno hts.symm hty.symm)⟩

theorem Comparable.isLexOrder (h : Comparable a) : IsLexOrder a where
  consistent := by
    have hle : ∀ {x y}, x ∈ a → y ∈ a → (compReplayEntries x y ≤ 0 ↔ ¬ LexLt y x) := by
      intro x y hx hy
      rw [← (h.sign hx hy).2, pos_iff, Int32.le_iff_toInt_le]
      exact Int.not_lt.symm
    constructor
    · intro x hx y hy
      rw [(h.sign hx hy).1, (h.sign hy hx).2]
    · intro x hx y hy z hz hxy hyz
      rw [hle hx hy] at hxy
      rw [hle hy hz] at hyz
      rw [hle hx hz]
      exact not_lexLt_trans hxy hyz
  neg := fun _ hx _ hy => (h.sign hx hy).1

theorem IsLexOrder.comparable (h : IsLexOrder a) : Comparable a := by
  intro x hx y hy hts
  have hneg := (h.neg x hx y hy).mpr (Or.inl hts)
  exact (compReplayEntries_earlier hts).mp ⟨hneg, (h.consistent.swap x hx y hy).mp hneg⟩

theorem sorted_execFirst {b : List ReplayEntry} (hops : OpsOrdered b)
    (h : b.Pairwise fun x y => ¬ LexLt y x) : SortedReplay b where
  sorted := h
  execFirst := by
    intro i j x y hi hj hctx he hc
    have hts := hops x (List.mem_of_getElem? hi) y (List.mem_of_getElem? hj) hctx he hc
    by_contra hij
    rcases Nat.lt_or_eq_of_le (Nat.not_lt.mp hij) with hlt | heq
    · obtain ⟨hj', rfl⟩ := List.getElem?_eq_some_iff.mp hj
      obtain ⟨hi', rfl⟩ := List.getElem?_eq_some_iff.mp hi
      exact List.pairwise_iff_getElem.mp h j i hj' hi' hlt (Or.inl hts)
    · subst heq
      rw [hi, Option.some_inj] at hj
      rw [hj, hc] at he
      cases he

/-- The comparator is the order by time stamp and type, and the sorted array is a
permutation of the array in that order with every operation executed before it commits, if
and only if all time stamps of the array can be compared modulo `2 ^ 32`. -/
theorem replay_order_iff (qsort : (ReplayEntry → ReplayEntry → Int32) → List ReplayEntry →
    List ReplayEntry) (hq : QsortSpec qsort) (a : List ReplayEntry) (hops : OpsOrdered a) :
    (IsLexOrder a ∧ (sortReplayArray qsort a).Perm a ∧ SortedReplay (sortReplayArray qsort a)) ↔
      Comparable a := by
  constructor
  · intro h
    exact h.1.comparable
  · intro h
    have hlex := h.isLexOrder
    obtain ⟨hperm, hsorted⟩ := hq compReplayEntries a hlex.consistent
    refine ⟨hlex, hperm, sorted_execFirst ?_ ?_⟩
    · intro x hx y hy
      exact hops x (hperm.mem_iff.mp hx) y (hperm.mem_iff.mp hy)
    · refine hsorted.imp_of_mem fun {x y} hx hy hle hlt => ?_
      rw [← (h.sign (hperm.mem_iff.mp hx) (hperm.mem_iff.mp hy)).2, pos_iff] at hlt
      rw [Int32.le_iff_toInt_le] at hle
      exact absurd hlt (Int.not_lt.mpr hle)

/-- A `qsort` that meets its specification. -/
def mergeQsort (cmp : ReplayEntry → ReplayEntry → Int32) (a : List ReplayEntry) :
    List ReplayEntry :=
  (a.attach.mergeSort fun x y => decide (cmp x.1 y.1 ≤ 0)).map Subtype.val

theorem mergeQsort_spec : QsortSpec mergeQsort := by
  intro cmp a h
  constructor
  · have hperm := (List.mergeSort_perm a.attach fun x y => decide (cmp x.1 y.1 ≤ 0)).map Subtype.val
    rwa [List.attach_map_subtype_val] at hperm
  · refine List.pairwise_map.mpr ((List.pairwise_mergeSort ?_ ?_ a.attach).imp of_decide_eq_true)
    · intro x y z hxy hyz
      exact decide_eq_true (h.trans x.1 x.2 y.1 y.2 z.1 z.2 (of_decide_eq_true hxy)
        (of_decide_eq_true hyz))
    · intro x y
      rw [Bool.or_eq_true, decide_eq_true_eq, decide_eq_true_eq, Int32.le_iff_toInt_le,
        Int32.le_iff_toInt_le]
      have hswap := h.swap y.1 y.2 x.1 x.2
      rw [neg_iff, pos_iff] at hswap
      change (cmp x.1 y.1).toInt ≤ 0 ∨ (cmp y.1 x.1).toInt ≤ 0
      omega

/-- Two operations that overlap in time. -/
theorem replay_order_close_clocks :
    let a : List ReplayEntry :=
      [⟨5, .exec, 0⟩, ⟨9, .commit, 0⟩, ⟨7, .exec, 1⟩, ⟨2000000000, .commit, 1⟩]
    IsLexOrder a ∧ (sortReplayArray mergeQsort a).Perm a ∧
      SortedReplay (sortReplayArray mergeQsort a) :=
  (replay_order_iff mergeQsort mergeQsort_spec _ (by unfold OpsOrdered; decide)).mpr
    (by unfold Comparable; decide)

/-- With three billion ticks between its start and its commit, the COMMIT record of an
operation is put before its EXEC record. -/
theorem commit_sorted_before_exec :
    let a : List ReplayEntry := [⟨1, .exec, 0⟩, ⟨3000000001, .commit, 0⟩]
    OpsOrdered a ∧ ¬ IsLexOrder a ∧ ¬ SortedReplay (sortReplayArray mergeQsort a) := by
  intro a
  refine ⟨by unfold OpsOrdered; decide, ?_, ?_⟩
  · intro h
    have hneg := (h.neg ⟨1, .exec, 0⟩ (by decide) ⟨3000000001, .commit, 0⟩ (by decide)).mpr
      (Or.inl (by decide))
    revert hneg
    decide
  · intro h
    have hcons : Consistent compReplayEntries a := ⟨by decide, by decide⟩
    obtain ⟨hperm, hsorted⟩ := mergeQsort_spec compReplayEntries a hcons
    obtain ⟨i, hi, hi'⟩ := List.getElem_of_mem (hperm.mem_iff.mpr (List.mem_cons_self ..))
    obtain ⟨j, hj, hj'⟩ := List.getElem_of_mem
      (hperm.mem_iff.mpr (List.mem_cons_of_mem _ (List.mem_cons_self ..)))
    -- sorted by the comparator, the EXEC record cannot stand in front
    have hij := h.execFirst i j _ _ (List.getElem?_eq_some_iff.mpr ⟨hi, hi'⟩)
      (List.getElem?_eq_some_iff.mpr ⟨hj, hj'⟩) rfl rfl rfl
    have hle := List.pairwise_iff_getElem.mp hsorted i j hi hj hij
    rw [hi', hj'] at hle
    revert hle
    decide

end TimeStone.Recovery
