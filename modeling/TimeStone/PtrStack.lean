/-
A pointer set as a stack (`util.h`).

`ts_ptr_set_t` is used as a stack: the objects allocated and freed in a transaction are pushed
on it, and so are the threads that recovery has in its pool.  Here it has its capacity, too,
and what the memory holds behind the elements that were stored is anything.

`ptrset_push` stores at `num_ptrs` and counts up, and an expansion keeps the elements, so the
first `num_ptrs` elements are always the stack (`SetInv`) and a search finds what is on it.
`ptrset_pop` reads at `num_ptrs` before it counts down.  That is one element beyond the last
one, and one beyond the array when the array is full.

* `SetInv.step` — every call keeps the elements of the stack;
* `followsStack_iff` — the calls behave as those of a stack if and only if no element is
  popped.
-/
import TimeStone.Config
import TimeStone.PtrSet
import TimeStone.Lib.ArrayStack

namespace TimeStone

/-- `TS_INIT_PTR_SET_SIZE`. -/
def initPtrSetSize : ℕ := 512

namespace PtrStack

open ArrayStack

/-- `ts_ptr_set_t` with the number of elements its array has room for. -/
structure PtrArray extends PtrSet where
  numMaxPtrs : ℕ

/-- `ptrset_init`, with the array in memory that holds `mem`. -/
def ptrsetInit (mem : ℕ → ℕ) : PtrArray := ⟨⟨0, mem⟩, initPtrSetSize⟩

/-- `port_realloc` from `num` to `newNum` elements.  It returns `NULL` if there is no block or
no element is asked for; behind the elements that it copies the block holds anything. -/
def portRealloc (ptrs : ℕ → ℕ) (num newNum : ℕ) (block : Option (ℕ → ℕ)) : Option (ℕ → ℕ) :=
  if newNum = 0 then none
  else block.map fun mem i => if i < min num newNum then ptrs i else mem i

/-- `ptrset_expand`; `none` for `ENOMEM`. -/
def ptrsetExpand (p : PtrArray) (block : Option (ℕ → ℕ)) : Option PtrArray :=
  let newNum := uint (p.numMaxPtrs + initPtrSetSize)
  (portRealloc p.ptrs p.numMaxPtrs newNum block).map fun ptrs =>
    { p with ptrs := ptrs, numMaxPtrs := newNum }

/-- `ptrset_push`. -/
def ptrsetPush (p : PtrArray) (x : ℕ) (block : Option (ℕ → ℕ)) : Option PtrArray :=
  (if p.numMaxPtrs ≤ p.numPtrs then ptrsetExpand p block else some p).map fun p =>
    { p with
      ptrs := fun i => if i = p.numPtrs then x else p.ptrs i
      numPtrs := uint (p.numPtrs + 1) }

/-- `ptrset_pop`: what it returns and what it leaves. -/
def ptrsetPop (p : PtrArray) : ℕ × PtrArray :=
  let r := TimeStone.ptrsetPop p.toPtrSet
  (r.1, { p with toPtrSet := r.2 })

/-- The index of the element that `ptrset_pop` reads. -/
def ptrsetPopReads (p : PtrArray) : Option ℕ := if 0 < p.numPtrs then some p.numPtrs else none

/-- `ptrset_reset`. -/
def ptrsetReset (p : PtrArray) : PtrArray :=
  { p with toPtrSet := TimeStone.ptrsetReset p.toPtrSet }

/-- `ptrset_is_member`. -/
def ptrsetIsMember (p : PtrArray) (x : ℕ) : Bool :=
  (List.range p.numPtrs).any fun i => p.ptrs i == x

inductive Call
  /-- `ptrset_push`, with the block that an expansion gets. -/
  | push (x : ℕ) (block : Option (ℕ → ℕ))
  | pop
  | reset

/-- One call; `none` if an allocation fails. -/
def step (p : PtrArray) : Call → Option PtrArray
  | .push x block => ptrsetPush p x block
  | .pop => some (ptrsetPop p).2
  | .reset => some (ptrsetReset p)

/-! ### What a stack does -/

/-- The pointers that were pushed and not yet popped or reset, the last one in front. -/
def stackStep (st : List ℕ) : Call → List ℕ
  | .push x _ => x :: st
  | .pop => st.tail
  | .reset => []

/-- A pop returns the top of the stack, `NULL` exactly if there is none, and reads no element
that was not pushed. -/
structure PopFollows (p : PtrArray) (st : List ℕ) : Prop where
  top : ∀ x rest, st = x :: rest → (ptrsetPop p).1 = x
  null : (ptrsetPop p).1 = 0 ↔ st = []
  inside : ∀ i, ptrsetPopReads p = some i → i < p.numPtrs ∧ i < p.numMaxPtrs

/-- From the set `p` on, in which `st` should be, the calls behave as those of a stack, and a
search finds what is on it. -/
def FollowsStack : PtrArray → List ℕ → List Call → Prop
  | p, st, [] => ∀ x, ptrsetIsMember p x = true ↔ x ∈ st
  | p, st, c :: cs =>
    (∀ x, ptrsetIsMember p x = true ↔ x ∈ st) ∧ (c = .pop → PopFollows p st) ∧
      ∀ p', step p c = some p' → FollowsStack p' (stackStep st c) cs

/-- No element is popped: the set is empty whenever `ptrset_pop` is called. -/
def PopsNone : PtrArray → List Call → Prop
  | _, [] => True
  | p, c :: cs => (c = .pop → p.numPtrs = 0) ∧ ∀ p', step p c = some p' → PopsNone p' cs

/-! ### The elements of the stack -/

variable {p p' : PtrArray} {st : List ℕ}

/-- The elements up to `num_ptrs` are the stack, and the array has room for them. -/
structure SetInv (p : PtrArray) (st : List ℕ) : Prop where
  holds : Holds p.ptrs p.numPtrs st
  room : p.numPtrs ≤ p.numMaxPtrs
  size : p.numMaxPtrs < 2 ^ 32
  blocks : initPtrSetSize ∣ p.numMaxPtrs

theorem SetInv.init (mem : ℕ → ℕ) : SetInv (ptrsetInit mem) [] :=
  ⟨.empty, Nat.zero_le _, show initPtrSetSize < 2 ^ 32 by decide, Nat.dvd_refl _⟩

/-- An expansion keeps the elements and makes room for one more. -/
theorem SetInv.expand {block : Option (ℕ → ℕ)} (h : SetInv p st)
    (hfull : p.numMaxPtrs ≤ p.numPtrs) (hp' : ptrsetExpand p block = some p') :
    SetInv p' st ∧ p'.numPtrs < p'.numMaxPtrs := by
  simp only [ptrsetExpand] at hp'
  obtain ⟨ptrs, hptrs, rfl⟩ := Option.map_eq_some_iff.mp hp'
  rw [portRealloc] at hptrs
  split at hptrs
  · cases hptrs
  obtain ⟨mem, -, rfl⟩ := Option.map_eq_some_iff.mp hptrs
  rename_i hne
  have hroom := h.room
  have hsize := h.size
  have hblocks := h.blocks
  -- a block size that wraps around would be 0
  have hnew : uint (p.numMaxPtrs + initPtrSetSize) = p.numMaxPtrs + initPtrSetSize := by
    simp only [uint, initPtrSetSize] at hne hblocks ⊢
    omega
  have hlt : p.numMaxPtrs + initPtrSetSize < 2 ^ 32 := by
    rw [← hnew]
    exact Nat.mod_lt _ (by decide)
  refine ⟨⟨h.holds.congr fun i hi => ?_, ?_, ?_, ?_⟩, ?_⟩
  · simp only [hnew]
    exact if_pos (by omega)
  · simp only [hnew]
    omega
  · simpa only [hnew] using hlt
  · simpa only [hnew] using Nat.dvd_add hblocks (Nat.dvd_refl _)
  · show p.numPtrs < uint (p.numMaxPtrs + initPtrSetSize)
    rw [hnew, initPtrSetSize]
    omega

theorem SetInv.push {x : ℕ} {block : Option (ℕ → ℕ)} (h : SetInv p st)
    (hp' : ptrsetPush p x block = some p') : SetInv p' (x :: st) := by
  obtain ⟨q, hq, rfl⟩ := Option.map_eq_some_iff.mp hp'
  have hinv : SetInv q st ∧ q.numPtrs < q.numMaxPtrs := by
    split at hq
    · rename_i hfull
      exact h.expand hfull hq
    · obtain rfl := Option.some_inj.mp hq
      exact ⟨h, by omega⟩
  obtain ⟨hq, hlt⟩ := hinv
  have hsize := hq.size
  have hnum : uint (q.numPtrs + 1) = q.numPtrs + 1 := Nat.mod_eq_of_lt (by omega)
  refine ⟨?_, ?_, hq.size, hq.blocks⟩
  · simp only [hnum]
    exact hq.holds.push (fun i hi => if_neg (by omega)) (if_pos rfl)
  · simp only [hnum]
    omega

theorem SetInv.pop (h : SetInv p st) : SetInv (ptrsetPop p).2 st.tail := by
  rcases hn : p.numPtrs with _ | n
  · -- nothing changes
    have hst : st = [] := by
      have hlen := h.holds.length
      rw [hn] at hlen
      exact List.eq_nil_of_length_eq_zero hlen.symm
    have hpop : (ptrsetPop p).2 = p := by
      rw [ptrsetPop, ptrsetPop_of_empty hn]
    rw [hpop]
    subst hst
    exact h
  · have hpop : (ptrsetPop p).2 = { p with numPtrs := n } := by
      rw [ptrsetPop, TimeStone.ptrsetPop, if_pos (by omega), hn]
      rfl
    have hroom := h.room
    have hholds := h.holds
    rw [hn] at hroom hholds
    rw [hpop]
    exact ⟨hholds.tail, Nat.le_of_succ_le hroom, h.size, h.blocks⟩

/-- Every call keeps the elements of the stack. -/
theorem SetInv.step {c : Call} (h : SetInv p st) (hp' : step p c = some p') :
    SetInv p' (stackStep st c) := by
  cases c with
  | push x block => exact h.push hp'
  | pop =>
    obtain rfl := Option.some_inj.mp hp'
    exact h.pop
  | reset =>
    obtain rfl := Option.some_inj.mp hp'
    exact ⟨.empty, Nat.zero_le _, h.size, h.blocks⟩

/-- A search finds what is on the stack. -/
theorem SetInv.isMember_iff (h : SetInv p st) (x : ℕ) : ptrsetIsMember p x = true ↔ x ∈ st := by
  rw [h.holds.mem_iff, ptrsetIsMember, List.any_eq_true]
  simp only [List.mem_range, beq_iff_eq]

/-- A pop behaves as that of a stack exactly if there is nothing to pop. -/
theorem SetInv.popFollows_iff (h : SetInv p st) : PopFollows p st ↔ p.numPtrs = 0 := by
  constructor
  · intro hf
    by_contra hne
    -- it reads the element behind the last one
    have hread := hf.inside p.numPtrs (if_pos (by omega))
    exact absurd hread.1 (Nat.lt_irrefl _)
  · intro h0
    have hst : st = [] := by
      have hlen := h.holds.length
      rw [h0] at hlen
      exact List.eq_nil_of_length_eq_zero hlen.symm
    have hpop : (ptrsetPop p).1 = 0 := by
      rw [ptrsetPop, ptrsetPop_of_empty h0]
    refine ⟨?_, iff_of_true hpop hst, ?_⟩
    · rw [hst]
      intro x rest hcons
      cases hcons
    · rw [ptrsetPopReads, if_neg (by omega)]
      intro i hi
      cases hi

/-! ### Sequences of calls -/

theorem SetInv.followsStack_iff_popsNone {cs : List Call} (h : SetInv p st) :
    FollowsStack p st cs ↔ PopsNone p cs := by
  induction cs generalizing p st with
  | nil => exact iff_of_true h.isMember_iff trivial
  | cons c cs ih =>
    rw [FollowsStack, PopsNone, and_iff_right h.isMember_iff, h.popFollows_iff]
    refine and_congr_right fun _ => forall₂_congr fun p' hp' => ?_
    exact ih (h.step hp')

/-- For every sequence of calls after `ptrset_init`, with any memory behind the elements and
any number of expansions: the pointer set behaves as a stack if and only if `ptrset_pop` is
called on the empty set only. -/
theorem followsStack_iff (mem : ℕ → ℕ) (cs : List Call) :
    FollowsStack (ptrsetInit mem) [] cs ↔ PopsNone (ptrsetInit mem) cs :=
  (SetInv.init mem).followsStack_iff_popsNone

/-- A pop after two pushes returns the element behind them, here `NULL`. -/
theorem pop_reads_behind_top :
    ¬ ∀ mem cs, FollowsStack (ptrsetInit mem) [] cs := by
  intro h
  obtain ⟨-, -, h⟩ := h (fun _ => 0) [.push 7 none, .push 8 none, .pop]
  obtain ⟨-, -, h⟩ := h _ rfl
  obtain ⟨-, hpop, -⟩ := h _ rfl
  have htop : 0 = 8 := (hpop rfl).top 8 [7] rfl
  cases htop

end PtrStack

end TimeStone
