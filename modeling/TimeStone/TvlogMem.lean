/-
The slots of the transient version logs (`port_alloc_tvlog_mem`, `port_free_tvlog_mem`).

The region of `port_tvlog_region_init` is cut into `num` slots of `size` bytes.  A bitmap of
64-bit words has one bit for each slot; slot `pos` has bit `pos % 64` of word `pos / 64`.
`port_alloc_tvlog_mem` computes the two numbers so, while `port_free_tvlog_mem` takes
`pos - (i + 64)` for the bit in word `i`, which the machine shift reduces modulo 64.  The
two agree for the words whose index is a multiple of 64 and for no other (`freeBit_eq_iff`).

* `portAllocTvlogMem_spec`, `portAllocTvlogMem_none` — what an allocation does;
* `portFreeTvlogMem_bit` — which bit a release clears;
* `slots_of_aligned` — in runs that release slots of those words only, the slots that are
  handed out are different, a release clears exactly its bit, and an allocation fails only if
  every slot is handed out.
-/
import TimeStone.Lib.Run
import Mathlib.Data.List.Nodup
import Mathlib.Data.Nat.Basic
import Mathlib.Algebra.Group.Nat.Defs

namespace TimeStone.TvlogMem

/-- `BITMAP_SIZE`. -/
def bitmapSize : ℕ := 1024

/-- `TS_MAX_THREAD_NUM`. -/
def maxThreadNum : ℕ := 2 ^ 14

/-- `FULLY_ALLOCATED`. -/
def fullyAllocated : BitVec 64 := 0xFFFFFFFFFFFFFFFF#64

/-- `g_lr` (`tvlog_region_allocator_t`) and `g_start_addr`. -/
structure Region where
  startAddr : ℕ
  size : ℕ
  num : ℕ
  bitmap : ℕ → BitVec 64

/-- The address of a slot. -/
def Region.addr (r : Region) (pos : ℕ) : ℕ := r.startAddr + pos * r.size

/-- Store one word of the bitmap. -/
def Region.storeWord (r : Region) (i : ℕ) (w : BitVec 64) : Region :=
  { r with bitmap := fun k => if k = i then w else r.bitmap k }

/-- The loop over the bits of word `i`, with `n` bits left: `none` if it runs to its end,
`some none` if it returns `NULL`, and the slot whose bit is off otherwise. -/
def allocBit (r : Region) (i : ℕ) : ℕ → Option (Option ℕ)
  | 0 => none
  | n + 1 =>
    let j := 64 - (n + 1)
    let pos := i * 64 + j
    if r.num ≤ pos then some none
    else if r.bitmap i &&& BitVec.twoPow 64 j = 0 then some (some pos)
    else allocBit r i n

/-- The loop over the words of the bitmap, with `n` words left. -/
def allocWord (r : Region) : ℕ → Option ℕ
  | 0 => none
  | n + 1 =>
    let i := bitmapSize - (n + 1)
    if r.bitmap i = fullyAllocated then allocWord r n
    else
      match allocBit r i 64 with
      | some res => res
      | none => allocWord r n

/-- `port_alloc_tvlog_mem`: the address and the region after it, `none` for `NULL`.  No
other call runs in between, so that the compare-and-swap succeeds. -/
def portAllocTvlogMem (r : Region) : Option (ℕ × Region) :=
  (allocWord r bitmapSize).map fun pos =>
    (r.addr pos,
      r.storeWord (pos / 64) (r.bitmap (pos / 64) ||| BitVec.twoPow 64 (pos % 64)))

/-- The bit that `port_free_tvlog_mem` shifts by, after the machine has taken it modulo 64. -/
def freeBit (pos : ℕ) : ℕ :=
  (((pos : ℤ) - ((pos / 64 : ℕ) + 64)) % 64).toNat

/-- `port_free_tvlog_mem`. -/
def portFreeTvlogMem (r : Region) (addr : ℕ) : Region :=
  let pos := (addr - r.startAddr) / r.size
  let i := pos / 64
  r.storeWord i (r.bitmap i &&& ~~~(BitVec.twoPow 64 (freeBit pos)))

/-- The bit of a slot. -/
def Region.bit (r : Region) (pos : ℕ) : Bool := (r.bitmap (pos / 64)).getLsbD (pos % 64)

/-- A release of `addr` clears the bit of its slot and leaves the others unchanged. -/
def ClearsSlot (r : Region) (addr : ℕ) : Prop :=
  ∀ pos, (portFreeTvlogMem r addr).bit pos = (r.bit pos && !decide (r.addr pos = addr))

/-! ### The loops of an allocation -/

theorem and_twoPow_eq_zero {w : BitVec 64} {j : ℕ} (hj : j < 64) :
    w &&& BitVec.twoPow 64 j = 0 ↔ w.getLsbD j = false := by
  rw [BitVec.and_twoPow]
  cases w.getLsbD j with
  | false => simp
  | true =>
    have h : (BitVec.twoPow 64 j).toNat ≠ 0 := by
      rw [BitVec.toNat_twoPow_of_lt hj]
      exact Nat.pos_iff_ne_zero.mp (Nat.two_pow_pos j)
    simp only [if_true, Bool.true_eq_false, iff_false]
    intro h0
    exact h (by rw [h0]; rfl)

theorem Region.bit_word (r : Region) {i j : ℕ} (hj : j < 64) :
    r.bit (i * 64 + j) = (r.bitmap i).getLsbD j := by
  have hi : (i * 64 + j) / 64 = i := by omega
  have hm : (i * 64 + j) % 64 = j := by omega
  rw [Region.bit, hi, hm]

theorem Region.bit_of_fullyAllocated {r : Region} {i pos : ℕ}
    (h : r.bitmap i = fullyAllocated) (hpos : pos / 64 = i) : r.bit pos = true := by
  have hall : ∀ j < 64, fullyAllocated.getLsbD j = true := by decide
  rw [Region.bit, hpos, h]
  exact hall _ (Nat.mod_lt _ (by decide))

/-- What the loop over the bits of a word finds: a slot whose bit is off, or no such slot
among those of the word that it looked at and that exist. -/
theorem allocBit_spec (r : Region) (i : ℕ) {n : ℕ} (hn : n ≤ 64) :
    match allocBit r i n with
    | some (some pos) => pos < r.num ∧ r.bit pos = false
    | some none => r.num < i * 64 + 64 ∧
        ∀ j, 64 - n ≤ j → i * 64 + j < r.num → r.bit (i * 64 + j) = true
    | none => ∀ j, 64 - n ≤ j → j < 64 → r.bit (i * 64 + j) = true := by
  induction n with
  | zero =>
    intro j h1 h2
    omega
  | succ n ih =>
    have hj : 64 - (n + 1) < 64 := by omega
    have hs : 64 - n = 64 - (n + 1) + 1 := by omega
    have ih := ih (by omega)
    simp only [allocBit]
    split_ifs with hnum hoff
    · refine ⟨by omega, ?_⟩
      intro j h1 h2
      omega
    · rw [and_twoPow_eq_zero hj] at hoff
      exact ⟨by omega, by rw [r.bit_word hj, hoff]⟩
    · -- the bit is on; the rest is what the remaining iterations say
      have hon : r.bit (i * 64 + (64 - (n + 1))) = true := by
        rw [r.bit_word hj]
        exact Bool.not_eq_false _ |>.mp fun h => hoff ((and_twoPow_eq_zero hj).mpr h)
      have hstep : ∀ j, 64 - (n + 1) ≤ j → j = 64 - (n + 1) ∨ 64 - n ≤ j := by omega
      split at ih
      · exact ih
      · refine ⟨ih.1, ?_⟩
        intro j h1 h2
        obtain rfl | h := hstep j h1
        · exact hon
        · exact ih.2 j h h2
      · intro j h1 h2
        obtain rfl | h := hstep j h1
        · exact hon
        · exact ih j h h2

/-- What the loop over the words finds. -/
theorem allocWord_spec (r : Region) {n : ℕ} (hn : n ≤ bitmapSize) :
    match allocWord r n with
    | some pos => pos < r.num ∧ r.bit pos = false
    | none => ∀ pos, bitmapSize - n ≤ pos / 64 → pos / 64 < bitmapSize → pos < r.num →
        r.bit pos = true := by
  induction n with
  | zero =>
    intro pos h1 h2
    omega
  | succ n ih =>
    have ih := ih (by omega)
    have hbit := allocBit_spec r (bitmapSize - (n + 1)) (n := 64) (by decide)
    have hstep : ∀ pos, bitmapSize - (n + 1) ≤ pos / 64 →
        pos / 64 = bitmapSize - (n + 1) ∨ bitmapSize - n ≤ pos / 64 := by omega
    -- the slots of this word, once its bits are known to be on
    have hword : (∀ j, j < 64 → (bitmapSize - (n + 1)) * 64 + j < r.num →
          r.bit ((bitmapSize - (n + 1)) * 64 + j) = true) →
        ∀ pos, pos / 64 = bitmapSize - (n + 1) → pos < r.num → r.bit pos = true := by
      intro h pos hpos hlt
      have heq : pos = (bitmapSize - (n + 1)) * 64 + pos % 64 := by omega
      rw [heq] at hlt ⊢
      exact h _ (Nat.mod_lt _ (by decide)) hlt
    have hrest : (∀ pos, pos / 64 = bitmapSize - (n + 1) → pos < r.num → r.bit pos = true) →
        match allocWord r n with
        | some pos => pos < r.num ∧ r.bit pos = false
        | none => ∀ pos, bitmapSize - (n + 1) ≤ pos / 64 → pos / 64 < bitmapSize →
            pos < r.num → r.bit pos = true := by
      intro h
      split at ih
      · exact ih
      · intro pos h1 h2 h3
        obtain h4 | h4 := hstep pos h1
        · exact h pos h4 h3
        · exact ih pos h4 h2 h3
    simp only [allocWord]
    split_ifs with hfull
    · exact hrest fun pos hpos _ => r.bit_of_fullyAllocated hfull hpos
    · split at hbit
      · rename_i pos heq
        rw [heq]
        exact hbit
      · rename_i heq
        rw [heq]
        intro pos h1 h2 h3
        exact hword (fun j _ h => hbit.2 j (by omega) h) pos (by omega) h3
      · rename_i heq
        rw [heq]
        exact hrest (hword fun j h _ => hbit j (by omega) h)

/-- An allocation takes a slot whose bit is off and turns that bit on. -/
theorem portAllocTvlogMem_spec {r r' : Region} {addr : ℕ}
    (h : portAllocTvlogMem r = some (addr, r')) :
    ∃ pos, pos < r.num ∧ r.bit pos = false ∧ addr = r.addr pos ∧
      r' = r.storeWord (pos / 64) (r.bitmap (pos / 64) ||| BitVec.twoPow 64 (pos % 64)) := by
  rw [portAllocTvlogMem, Option.map_eq_some_iff] at h
  obtain ⟨pos, hpos, heq⟩ := h
  have hspec := allocWord_spec r le_rfl
  rw [hpos] at hspec
  cases heq
  exact ⟨pos, hspec.1, hspec.2, rfl, rfl⟩

/-- An allocation fails only if the bit of every slot is on. -/
theorem portAllocTvlogMem_none {r : Region} (hnum : r.num ≤ maxThreadNum)
    (h : portAllocTvlogMem r = none) {pos : ℕ} (hpos : pos < r.num) : r.bit pos = true := by
  rw [portAllocTvlogMem, Option.map_eq_none_iff] at h
  have hspec := allocWord_spec r le_rfl
  rw [h] at hspec
  have hlt : pos / 64 < bitmapSize := by
    rw [maxThreadNum] at hnum
    rw [bitmapSize]
    omega
  exact hspec pos (by omega) hlt hpos

/-! ### The bit of a release -/

theorem Region.bit_set (r : Region) (pos p : ℕ) :
    (r.storeWord (pos / 64) (r.bitmap (pos / 64) ||| BitVec.twoPow 64 (pos % 64))).bit p =
      (r.bit p || decide (p = pos)) := by
  have hlt : pos % 64 < 64 := Nat.mod_lt _ (by decide)
  by_cases hw : p / 64 = pos / 64
  · have hp : p = pos ↔ pos % 64 = p % 64 := by omega
    simp [Region.bit, Region.storeWord, hw, hlt, BitVec.getLsbD_twoPow, hp]
  · have hp : p ≠ pos := by rintro rfl; exact hw rfl
    simp [Region.bit, Region.storeWord, hw, hp]

theorem Region.bit_clear (r : Region) (i : ℕ) {j : ℕ} (hj : j < 64) (p : ℕ) :
    (r.storeWord i (r.bitmap i &&& ~~~(BitVec.twoPow 64 j))).bit p =
      (r.bit p && !decide (p = i * 64 + j)) := by
  have hlt : p % 64 < 64 := Nat.mod_lt _ (by decide)
  by_cases hw : p / 64 = i
  · have hp : p = i * 64 + j ↔ p % 64 = j := by omega
    simp [Region.bit, Region.storeWord, hw, hlt, hp]
  · have hp : p ≠ i * 64 + j := by omega
    simp [Region.bit, Region.storeWord, hw, hp]

theorem freeBit_lt (pos : ℕ) : freeBit pos < 64 := by
  rw [freeBit]
  omega

/-- The shift of a release meets the bit of the slot in the words whose index is a multiple
of 64 only. -/
theorem freeBit_eq_iff (pos : ℕ) : freeBit pos = pos % 64 ↔ pos / 64 % 64 = 0 := by
  rw [freeBit]
  omega

theorem Region.pos_of_addr {r : Region} (hsize : 0 < r.size) (pos : ℕ) :
    (r.addr pos - r.startAddr) / r.size = pos := by
  rw [Region.addr, Nat.add_sub_cancel_left, Nat.mul_div_cancel _ hsize]

theorem Region.addr_inj {r : Region} (hsize : 0 < r.size) {p q : ℕ} :
    r.addr p = r.addr q ↔ p = q := by
  constructor
  · intro h
    rw [← r.pos_of_addr hsize p, h, r.pos_of_addr hsize]
  · exact congrArg _

/-- A release of slot `pos` clears bit `freeBit pos` of its word. -/
theorem portFreeTvlogMem_bit {r : Region} (hsize : 0 < r.size) (pos p : ℕ) :
    (portFreeTvlogMem r (r.addr pos)).bit p =
      (r.bit p && !decide (p = pos / 64 * 64 + freeBit pos)) := by
  rw [portFreeTvlogMem, r.pos_of_addr hsize]
  exact r.bit_clear _ (freeBit_lt pos) p

/-- A release of a slot whose bit is on clears exactly that bit if and only if the slot is
in a word whose index is a multiple of 64. -/
theorem clearsSlot_iff {r : Region} (hsize : 0 < r.size) {pos : ℕ} (hbit : r.bit pos = true) :
    ClearsSlot r (r.addr pos) ↔ pos / 64 % 64 = 0 := by
  rw [← freeBit_eq_iff]
  have heq : freeBit pos = pos % 64 ↔ pos = pos / 64 * 64 + freeBit pos := by omega
  rw [heq]
  constructor
  · intro h
    -- the bit of the slot itself has to go off
    have hpos := h pos
    rw [portFreeTvlogMem_bit hsize, hbit] at hpos
    simpa using hpos
  · intro h p
    rw [portFreeTvlogMem_bit hsize, ← h]
    simp only [r.addr_inj hsize]

/-! ### Runs -/

/-- The region and the addresses that are handed out. -/
structure State where
  region : Region
  held : List ℕ

inductive Action
  | alloc
  | free (addr : ℕ)

/-- A region after `port_tvlog_region_init`, of at most `TS_MAX_THREAD_NUM` slots. -/
def Init (s : State) : Prop :=
  0 < s.region.size ∧ s.region.num ≤ maxThreadNum ∧ s.region.bitmap = (fun _ => 0) ∧
    s.held = []

/-- A call of the allocator.  An address that is released was handed out before. -/
def step (s : State) : Action → Option State
  | .alloc =>
    match portAllocTvlogMem s.region with
    | some (addr, r) => some ⟨r, addr :: s.held⟩
    | none => some s
  | .free addr =>
    if addr ∈ s.held then some ⟨portFreeTvlogMem s.region addr, s.held.erase addr⟩ else none

/-- The slots that are released are in words whose index is a multiple of 64. -/
def Aligned (s : State) : Action → Prop
  | .alloc => True
  | .free addr => (addr - s.region.startAddr) / s.region.size / 64 % 64 = 0

instance (s : State) (a : Action) : Decidable (Aligned s a) :=
  match a with
  | .alloc => inferInstanceAs (Decidable True)
  | .free _ => inferInstanceAs (Decidable (_ = _))

/-- The bits are those of the slots that are handed out. -/
structure Inv (s : State) : Prop where
  size : 0 < s.region.size
  num : s.region.num ≤ maxThreadNum
  slot : ∀ a ∈ s.held, ∃ pos < s.region.num, a = s.region.addr pos
  bit : ∀ pos, s.region.bit pos = true ↔ s.region.addr pos ∈ s.held
  nodup : s.held.Nodup

theorem Inv.init {s : State} (h : Init s) : Inv s := by
  obtain ⟨hsize, hnum, hbit, hheld⟩ := h
  refine ⟨hsize, hnum, ?_, ?_, ?_⟩
  · rw [hheld]
    intro a ha
    cases ha
  · intro pos
    simp [Region.bit, hbit, hheld]
  · rw [hheld]
    exact List.nodup_nil

theorem Inv.alloc {s : State} {r : Region} {addr : ℕ} (h : Inv s)
    (ha : portAllocTvlogMem s.region = some (addr, r)) : Inv ⟨r, addr :: s.held⟩ := by
  obtain ⟨pos, hpos, hoff, rfl, rfl⟩ := portAllocTvlogMem_spec ha
  have hfresh : s.region.addr pos ∉ s.held := by
    intro hmem
    rw [(h.bit pos).mpr hmem] at hoff
    cases hoff
  refine ⟨h.size, h.num, ?_, ?_, List.nodup_cons.mpr ⟨hfresh, h.nodup⟩⟩
  · intro a hmem
    obtain rfl | hmem := List.mem_cons.mp hmem
    · exact ⟨pos, hpos, rfl⟩
    · exact h.slot a hmem
  · intro p
    rw [Region.bit_set, Bool.or_eq_true, h.bit p, decide_eq_true_iff, List.mem_cons, or_comm]
    exact or_congr_left (Region.addr_inj h.size).symm

theorem Inv.free {s : State} {addr : ℕ} (h : Inv s) (hmem : addr ∈ s.held)
    (hok : Aligned s (.free addr)) :
    Inv ⟨portFreeTvlogMem s.region addr, s.held.erase addr⟩ := by
  obtain ⟨pos, -, rfl⟩ := h.slot addr hmem
  rw [Aligned, Region.pos_of_addr h.size] at hok
  have hclear := (clearsSlot_iff h.size ((h.bit pos).mpr hmem)).mpr hok
  refine ⟨h.size, h.num, ?_, ?_, h.nodup.erase _⟩
  · intro a ha
    exact h.slot a (List.mem_of_mem_erase ha)
  · intro p
    rw [hclear p, Bool.and_eq_true, h.bit p, h.nodup.mem_erase_iff]
    simp [and_comm, portFreeTvlogMem, Region.storeWord, Region.addr]

theorem Inv.step {s s' : State} {a : Action} (h : Inv s) (hok : Aligned s a)
    (hs : step s a = some s') : Inv s' := by
  cases a with
  | alloc =>
    rw [TvlogMem.step] at hs
    split at hs
    · rename_i addr r ha
      cases hs
      exact h.alloc ha
    · cases hs
      exact h
  | free addr =>
    simp only [TvlogMem.step, Option.ite_none_right_eq_some, Option.some_inj] at hs
    obtain ⟨hmem, rfl⟩ := hs
    exact h.free hmem hok

/-- In every run that releases slots of words with an index that is a multiple of 64 only,
the addresses that are handed out are different and an allocation returns `NULL` only if
every slot is handed out; and in every state of such a run a release of a slot clears
exactly the bit of that slot if and only if it is one of those slots. -/
theorem slots_of_aligned {s : State} (h : Run.Reach Init step Aligned s) :
    s.held.Nodup ∧
      (∀ addr ∈ s.held, ClearsSlot s.region addr ↔ Aligned s (.free addr)) ∧
      (portAllocTvlogMem s.region = none →
        ∀ pos < s.region.num, s.region.addr pos ∈ s.held) := by
  have hinv : Inv s :=
    h.invariant (fun _ => Inv.init) fun _ _ _ hi hok hs => hi.step hok hs
  refine ⟨hinv.nodup, ?_, ?_⟩
  · intro addr hmem
    obtain ⟨pos, -, rfl⟩ := hinv.slot addr hmem
    rw [clearsSlot_iff hinv.size ((hinv.bit pos).mpr hmem), Aligned,
      Region.pos_of_addr hinv.size]
  · intro hnull pos hpos
    exact (hinv.bit pos).mp (portAllocTvlogMem_none hinv.num hnull hpos)

/-- The region that `ts_init` sets up. -/
def freshRegion : State :=
  ⟨⟨0x7f0000000000, 2 ^ 20, maxThreadNum, fun _ => 0⟩, []⟩

theorem freshRegion_init : Init freshRegion := ⟨by decide, by decide, rfl, rfl⟩

/-- After an allocation and a release of slot 0. -/
theorem slots_of_aligned_run : ∃ s : State, Run.Reach Init step Aligned s ∧ s.held.Nodup := by
  have hex : (Run.exec step Aligned freshRegion
      [.alloc, .alloc, .free 0x7f0000000000, .alloc]).isSome = true := by decide +kernel
  obtain ⟨s, hs⟩ := Option.isSome_iff_exists.mp hex
  have hreach := Run.Reach.of_exec (.init freshRegion_init) hs
  exact ⟨s, hreach, (slots_of_aligned hreach).1⟩

/-- With 128 slots handed out, the release of slot 64 clears the bit of slot 127, and the
next allocation hands slot 127 out a second time. -/
theorem slot_handed_out_twice :
    ¬ ∀ s : State, Run.Reach Init step Run.any s → s.held.Nodup := by
  intro h
  have hex : (Run.exec step Run.any freshRegion
      (List.replicate 128 .alloc ++ [.free (0x7f0000000000 + 64 * 2 ^ 20), .alloc])).map
        (fun s => decide (s.held.Nodup)) = some false := by decide +kernel
  obtain ⟨s, hs, hdup⟩ := Option.map_eq_some_iff.mp hex
  exact of_decide_eq_false hdup (h s (Run.Reach.of_exec (.init freshRegion_init) hs))

end TimeStone.TvlogMem
