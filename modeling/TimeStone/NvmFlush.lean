/-
Writing back to non-volatile memory (`nvm.h`).

`flush_to_nvm` issues a `clwb` at the address it is given and at every address that is a
multiple of the line size further on, as long as it stays inside the range.  It does not round
the address down to its line, so from the middle of a line the last `clwb` may be for the line
before the one in which the range ends.  Both the offset in the line and the size decide.

The loop counter has 32 bits, as the size has, so the loop does not end when no multiple of
the line size is left between the size and `2 ^ 32`.  What it issues until then is the same.

* `mem_flushToNvm` — which lines the loop writes back;
* `flushCovers_iff` — when these are all the lines of the range;
* `stable_writeback_iff` — so this is when a writeback with `memcpy_to_nvm` and a fence makes
  the object durable, on a memory where `clwb` writes back the line that it is called for;
* `ends_flushToNvm_iff` — when the loop ends.
-/
import TimeStone.NvlogFlush

namespace TimeStone.NvmFlush

open Bytes Pmem
open ByteLog (Op Nvm execs_flush)

/-- The loop of `flush_to_nvm` with counter `i`, for at most the given number of iterations. -/
def flushLoop (dst size : ℕ) : ℕ → ℕ → List Op
  | 0, _ => []
  | n + 1, i =>
    if i < size then
      .clwb ((dst + i) / cacheLineSize) :: flushLoop dst size n (uint (i + cacheLineSize))
    else []

/-- `flush_to_nvm`: the instructions of its first `n` iterations. -/
def flushToNvm (dst size n : ℕ) : List Op := flushLoop dst size n 0

/-- `memcpy` of `size` bytes of the memory `m`. -/
def memcpy (m : ℕ → UInt8) (dst src size : ℕ) : List Op :=
  (List.range size).map fun k => .store ⟨dst + k, m (src + k)⟩

/-- `memcpy_to_nvm`, up to the first `n` iterations of its `flush_to_nvm`. -/
def memcpyToNvm (m : ℕ → UInt8) (dst src size n : ℕ) : List Op :=
  memcpy m dst src size ++ flushToNvm dst size n

/-- A cache line that intersects the range. -/
def Touches (dst size line : ℕ) : Prop :=
  ∃ a, dst ≤ a ∧ a < dst + size ∧ a / cacheLineSize = line

/-- What a call issues, by the number of its iterations, writes back every line of the
range. -/
def Covers (issued : ℕ → List Op) (dst size : ℕ) : Prop :=
  ∀ line, Touches dst size line → ∃ n, .clwb line ∈ issued n

/-- `flush_to_nvm` and `memcpy_to_nvm` write back every line of the range. -/
def FlushCovers (dst size : ℕ) : Prop :=
  Covers (flushToNvm dst size) dst size ∧
    ∀ m src, Covers (memcpyToNvm m dst src size) dst size

variable {dst size n line : ℕ}

/-! ### The lines that are written back -/

/-- The counter is always a multiple of the line size. -/
theorem exists_of_mem_flushLoop {i : ℕ} (h64 : 64 ∣ i)
    (h : .clwb line ∈ flushLoop dst size n i) :
    ∃ j, 64 * j < size ∧ line = dst / 64 + j := by
  induction n generalizing i with
  | zero => cases h
  | succ n ih =>
    rw [flushLoop] at h
    split at h
    · rename_i hlt
      obtain ⟨j, rfl⟩ := h64
      rcases List.mem_cons.mp h with h | h
      · refine ⟨j, hlt, ?_⟩
        rw [Op.clwb.injEq, cacheLineSize] at h
        omega
      · refine ih ?_ h
        rw [uint, cacheLineSize]
        omega
    · cases h

/-- As long as the counter stays below the size it does not wrap around. -/
theorem mem_flushLoop {j : ℕ} (hsize : size < 2 ^ 32) (k : ℕ) (h : 64 * (k + j) < size) :
    .clwb (dst / 64 + (k + j)) ∈ flushLoop dst size (j + 1) (64 * k) := by
  induction j generalizing k with
  | zero =>
    rw [Nat.add_zero] at h
    rw [flushLoop, if_pos h]
    have hline : (dst + 64 * k) / cacheLineSize = dst / 64 + (k + 0) := by
      rw [cacheLineSize]
      omega
    rw [hline]
    exact List.mem_cons_self
  | succ j ih =>
    have hnext : uint (64 * k + cacheLineSize) = 64 * (k + 1) := by
      rw [uint, cacheLineSize]
      omega
    rw [flushLoop, if_pos (by omega), hnext, show k + (j + 1) = k + 1 + j by omega]
    exact List.mem_cons_of_mem _ (ih (k + 1) (by omega))

/-- The lines that `flush_to_nvm` writes back: as many from the first one on as there are
multiples of the line size below the size. -/
theorem mem_flushToNvm (hsize : size < 2 ^ 32) :
    (∃ n, .clwb line ∈ flushToNvm dst size n) ↔ ∃ j, 64 * j < size ∧ line = dst / 64 + j := by
  constructor
  · rintro ⟨n, h⟩
    exact exists_of_mem_flushLoop (Nat.dvd_zero 64) h
  · rintro ⟨j, hj, rfl⟩
    have hmem : .clwb (dst / 64 + (0 + j)) ∈ flushLoop dst size (j + 1) (64 * 0) :=
      mem_flushLoop hsize 0 (by omega)
    rw [Nat.zero_add] at hmem
    exact ⟨j + 1, hmem⟩

/-- The lines of a range are those between its first byte and its last one. -/
theorem touches_iff (h0 : 0 < size) :
    Touches dst size line ↔ dst / 64 ≤ line ∧ line ≤ (dst + (size - 1)) / 64 := by
  constructor
  · rintro ⟨a, h1, h2, rfl⟩
    rw [cacheLineSize]
    omega
  · rintro ⟨h1, h2⟩
    refine ⟨max dst (64 * line), by omega, by omega, ?_⟩
    rw [cacheLineSize]
    omega

theorem covers_flushToNvm_iff (h0 : 0 < size) (hsize : size < 2 ^ 32) :
    Covers (flushToNvm dst size) dst size ↔ dst % 64 + (size - 1) % 64 < 64 := by
  constructor
  · intro h
    -- the line in which the range ends
    obtain ⟨j, hj, hline⟩ := (mem_flushToNvm hsize).mp
      (h ((dst + (size - 1)) / 64) ((touches_iff h0).mpr ⟨by omega, le_refl _⟩))
    omega
  · intro h line ht
    rw [touches_iff h0] at ht
    exact (mem_flushToNvm hsize).mpr ⟨line - dst / 64, by omega, by omega⟩

theorem clwb_mem_memcpyToNvm {m : ℕ → UInt8} {src : ℕ} :
    .clwb line ∈ memcpyToNvm m dst src size n ↔ .clwb line ∈ flushToNvm dst size n := by
  simp [memcpyToNvm, memcpy]

/-- `memcpy_to_nvm` writes back what `flush_to_nvm` does. -/
theorem flushCovers_iff_covers :
    FlushCovers dst size ↔ Covers (flushToNvm dst size) dst size := by
  constructor
  · exact And.left
  · intro h
    refine ⟨h, fun m src line ht => ?_⟩
    obtain ⟨n, hn⟩ := h line ht
    exact ⟨n, clwb_mem_memcpyToNvm.mpr hn⟩

/-- `flush_to_nvm(dst, size)` and `memcpy_to_nvm(dst, src, size)` write back every line of the
range if and only if the offset of `dst` in its line and that of the last byte from `dst` on
stay within one line. -/
theorem flushCovers_iff (h0 : 0 < size) (hsize : size < 2 ^ 32) :
    FlushCovers dst size ↔ dst % 64 + (size - 1) % 64 < 64 := by
  rw [flushCovers_iff_covers, covers_flushToNvm_iff h0 hsize]

/-- The payload of 200 bytes of an object whose header is at the start of a line: it ends in
the third line behind, and four lines are written back. -/
theorem flushCovers_payload : FlushCovers (4096 + 40) 200 :=
  (flushCovers_iff (by decide) (by decide)).mpr (by decide)

/-- With 32 bytes that payload ends in the next line, which is not written back. -/
theorem line_of_payload_missed :
    ¬ ∀ dst size, 0 < size → size < 2 ^ 32 → FlushCovers dst size := by
  intro h
  have hcov := h (4096 + 40) 32 (by decide) (by decide)
  rw [flushCovers_iff_covers, covers_flushToNvm_iff (by decide) (by decide)] at hcov
  revert hcov
  decide

/-- The payload of an object never starts a line, whatever 16-byte-aligned address the object
has, so that a size exists for which its last line is missed. -/
theorem exists_payload_missed {ahs : ℕ} (h16 : 16 ∣ ahs) :
    ∃ size, 0 < size ∧ size ≤ 64 ∧ ¬ FlushCovers (ahs + 40) size := by
  refine ⟨64, by decide, le_refl _, ?_⟩
  rw [flushCovers_iff_covers, covers_flushToNvm_iff (by decide) (by decide)]
  omega

/-! ### The whole loop -/

theorem flushLoop_eq (hsize : size + 63 < 2 ^ 32) (k : ℕ) (hn : size ≤ 64 * (k + n)) :
    flushLoop dst size n (64 * k) =
      (List.range' (dst / 64 + k) ((size + 63) / 64 - k)).map .clwb := by
  induction n generalizing k with
  | zero =>
    rw [Nat.add_zero] at hn
    rw [flushLoop, show (size + 63) / 64 - k = 0 by omega]
    rfl
  | succ n ih =>
    rw [flushLoop]
    split
    · rename_i hlt
      have hnext : uint (64 * k + cacheLineSize) = 64 * (k + 1) := by
        rw [uint, cacheLineSize]
        omega
      have hline : (dst + 64 * k) / cacheLineSize = dst / 64 + k := by
        rw [cacheLineSize]
        omega
      rw [hnext, hline, ih (k + 1) (by omega),
        show (size + 63) / 64 - k = (size + 63) / 64 - (k + 1) + 1 by omega, List.range'_succ]
      rfl
    · rw [show (size + 63) / 64 - k = 0 by omega]
      rfl

/-- The lines of a loop that has ended, in order. -/
theorem flushToNvm_eq (hsize : size + 63 < 2 ^ 32) (hn : size ≤ 64 * n) :
    flushToNvm dst size n = (List.range' (dst / 64) ((size + 63) / 64)).map .clwb := by
  have h : flushLoop dst size n (64 * 0) =
      (List.range' (dst / 64 + 0) ((size + 63) / 64 - 0)).map .clwb :=
    flushLoop_eq hsize 0 (by omega)
  rwa [Nat.mul_zero, Nat.add_zero, Nat.sub_zero] at h

/-- Close to `2 ^ 32` the counter wraps around and never reaches the size. -/
theorem length_flushLoop {i : ℕ} (hsize : 2 ^ 32 ≤ size + 63) (h64 : 64 ∣ i)
    (hi : i < 2 ^ 32) : (flushLoop dst size n i).length = n := by
  induction n generalizing i with
  | zero => rfl
  | succ n ih =>
    have hnext : 64 ∣ uint (i + cacheLineSize) ∧ uint (i + cacheLineSize) < 2 ^ 32 := by
      rw [uint, cacheLineSize]
      omega
    rw [flushLoop, if_pos (by omega), List.length_cons, ih hnext.1 hnext.2]

/-- The loop of `flush_to_nvm` ends if and only if the size is not within a line of
`2 ^ 32`. -/
theorem ends_flushToNvm_iff :
    (∃ n, ∀ n' ≥ n, flushToNvm dst size n' = flushToNvm dst size n) ↔ size + 63 < 2 ^ 32 := by
  constructor
  · rintro ⟨n, hn⟩
    by_contra hsize
    have hlen : ∀ n, (flushToNvm dst size n).length = n := fun n =>
      length_flushLoop (by omega) (Nat.dvd_zero 64) (by decide)
    have hnext := congrArg List.length (hn (n + 1) (by omega))
    rw [hlen, hlen] at hnext
    omega
  · intro hsize
    refine ⟨size, fun n' hn' => ?_⟩
    rw [flushToNvm_eq hsize (by omega), flushToNvm_eq hsize (by omega)]

/-! ### Durability -/

/-- A line that is stored to and not written back since. -/
theorem late_execs_stores {ss : List Store} {m : Nvm}
    (h : (m.line line).late ≠ [] ∨ ∃ s ∈ ss, s.addr / cacheLineSize = line) :
    ((m.execsIdeal (ss.map .store)).line line).late ≠ [] := by
  induction ss generalizing m with
  | nil => exact h.resolve_right (by simp)
  | cons s ss ih =>
    refine ih (m := m.execIdeal (.store s)) ?_
    by_cases hs : line = s.addr / cacheLineSize
    · refine .inl ?_
      simp only [Nvm.execIdeal, Nvm.storeByte, if_pos hs, Cell.store]
      simp
    · refine h.imp (fun h => ?_) fun hex => ?_
      · simp only [Nvm.execIdeal, Nvm.storeByte, if_neg hs]
        exact h
      · obtain ⟨t, ht, hline⟩ := hex
        rcases List.mem_cons.mp ht with rfl | ht
        · exact absurd hline.symm hs
        · exact ⟨t, ht, hline⟩

/-- Write-backs of other lines leave a line alone. -/
theorem line_execs_clwb {ks : List ℕ} {m : Nvm} (h : line ∉ ks) :
    (m.execsIdeal (ks.map .clwb)).line line = m.line line := by
  induction ks generalizing m with
  | nil => rfl
  | cons k ks ih =>
    rw [List.mem_cons, not_or] at h
    refine (ih (m := m.execIdeal (.clwb k)) h.2).trans ?_
    simp only [Nvm.execIdeal, if_neg h.1]

theorem execs_append (m : Nvm) (as bs : List Op) :
    m.execsIdeal (as ++ bs) = (m.execsIdeal as).execsIdeal bs :=
  List.foldl_append

/-- After `memcpy_to_nvm` and a fence the lines of the range are stable if and only if
`flush_to_nvm` covers them. -/
theorem stable_writeback_iff (h0 : 0 < size) (hsize : size + 63 < 2 ^ 32) (hn : size ≤ 64 * n)
    (m : Nvm) (b : ℕ → UInt8) (src : ℕ) :
    (∀ k, Touches dst size k →
        ((m.execsIdeal (memcpyToNvm b dst src size n ++ [.fence])).line k).Stable) ↔
      FlushCovers dst size := by
  rw [memcpyToNvm, List.append_assoc, execs_append, flushToNvm_eq hsize hn,
    flushCovers_iff_covers, covers_flushToNvm_iff h0 (by omega)]
  constructor
  · intro h
    by_contra hmiss
    -- the line of the last byte is stored to, but not written back
    have htouch : Touches dst size ((dst + (size - 1)) / 64) :=
      (touches_iff h0).mpr ⟨by omega, le_refl _⟩
    have hnot : (dst + (size - 1)) / 64 ∉ List.range' (dst / 64) ((size + 63) / 64) := by
      rw [List.mem_range'_1]
      omega
    have hlate : ((m.execsIdeal (memcpy b dst src size)).line ((dst + (size - 1)) / 64)).late ≠ [] := by
      have heq : memcpy b dst src size =
          ((List.range size).map fun k => (⟨dst + k, b (src + k)⟩ : Store)).map .store := by
        rw [memcpy, List.map_map]
        rfl
      rw [heq]
      refine late_execs_stores (.inr ⟨⟨dst + (size - 1), b (src + (size - 1))⟩, ?_, rfl⟩)
      exact List.mem_map.mpr ⟨size - 1, List.mem_range.mpr (by omega), rfl⟩
    have hst := (h _ htouch).1
    rw [execs_append] at hst
    change ((Nvm.line _ _).late = []) at hst
    rw [line_execs_clwb hnot] at hst
    exact hlate hst
  · intro h k hk
    rw [touches_iff h0] at hk
    exact (execs_flush _ _).2 k (by rw [List.mem_range'_1]; omega)

end TimeStone.NvmFlush
