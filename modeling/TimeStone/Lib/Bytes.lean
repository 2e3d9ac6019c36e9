/-
Byte memories and little-endian words.

A memory is a map `ℕ → UInt8`.  A store of one byte is a `Store`, and an
operation on memory is the list of its stores in program order, so that what the
operation writes can be read off the list.  `put` performs the stores, `word i w v`
are the stores of the number `v` as `w` bytes at address `i`, and `load` reads such a
number back.

* `put_of_notMem`, `copy_of_outside` — an address that is not stored to keeps its byte;
* `load_put_word` — a load reads the word that was stored;
* `Holds.load_word` — and it does so from a memory that holds the stores;
* `Holds.put` — a memory that holds the bytes last stored by `ss` holds those of
  `ss ++ ts` after the stores `ts`.
-/
import Mathlib.Tactic.Common
import Mathlib.Data.List.Induction
import Mathlib.Algebra.Order.Group.Nat
import Mathlib.Data.Nat.Notation

namespace Bytes

/-- The store of one byte. -/
structure Store where
  addr : ℕ
  byte : UInt8
  deriving DecidableEq

/-- Perform stores in order. -/
def put (m : ℕ → UInt8) (ss : List Store) : ℕ → UInt8 :=
  ss.foldl (fun m s i => if i = s.addr then s.byte else m i) m

/-- The stores of the `w` bytes of `v` at address `i`, the lowest byte first. -/
def word (i w v : ℕ) : List Store :=
  (List.range w).map fun k => ⟨i + k, UInt8.ofNat (v / 256 ^ k)⟩

/-- The number in the `w` bytes at address `i`. -/
def load (m : ℕ → UInt8) (i : ℕ) : ℕ → ℕ
  | 0 => 0
  | w + 1 => (m i).toNat + 256 * load m (i + 1) w

/-- Copy `n` bytes of `src` to address `i`. -/
def copy (m : ℕ → UInt8) (i n : ℕ) (src : ℕ → UInt8) : ℕ → UInt8 :=
  fun k => if i ≤ k ∧ k < i + n then src (k - i) else m k

/-- The byte that `ss` stored last at an address. -/
def lastStored (ss : List Store) (i : ℕ) : Option UInt8 :=
  ss.foldl (fun r s => if i = s.addr then some s.byte else r) none

/-- The memory holds the bytes that `ss` stored last. -/
def Holds (m : ℕ → UInt8) (ss : List Store) : Prop :=
  ∀ i b, lastStored ss i = some b → m i = b

/-- A store at an address that is `p` higher. -/
def Store.shift (p : ℕ) (s : Store) : Store := ⟨p + s.addr, s.byte⟩

variable {m m' : ℕ → UInt8} {ss ts : List Store} {i j w v p : ℕ}

@[simp] theorem put_nil : put m [] = m := rfl

theorem put_append : put m (ss ++ ts) = put (put m ss) ts := List.foldl_append

theorem lastStored_concat (ss : List Store) (s : Store) (i : ℕ) :
    lastStored (ss ++ [s]) i = if i = s.addr then some s.byte else lastStored ss i :=
  List.foldl_append

/-- Stores read no memory: what they leave at an address is the byte stored there last, or
what was there. -/
theorem put_eq (m : ℕ → UInt8) (ss : List Store) (i : ℕ) :
    put m ss i = (lastStored ss i).getD (m i) := by
  induction ss using List.reverseRecOn with
  | nil => rfl
  | append_singleton ss s ih =>
    rw [put_append, lastStored_concat]
    simp only [put, List.foldl_cons, List.foldl_nil]
    split
    · rfl
    · exact ih

theorem lastStored_append (ss ts : List Store) (i : ℕ) :
    lastStored (ss ++ ts) i = (lastStored ts i).or (lastStored ss i) := by
  induction ts using List.reverseRecOn with
  | nil => simp [lastStored]
  | append_singleton ts s ih =>
    rw [← List.append_assoc, lastStored_concat, lastStored_concat]
    split
    · rfl
    · exact ih

theorem lastStored_eq_none (h : ∀ s ∈ ss, s.addr ≠ i) : lastStored ss i = none := by
  induction ss using List.reverseRecOn with
  | nil => rfl
  | append_singleton ss s ih =>
    have hs := h s (by simp)
    have ih := ih fun s hs => h s (by simp [hs])
    rw [lastStored_concat, if_neg (Ne.symm hs), ih]

/-- An address that no store goes to keeps its byte. -/
theorem put_of_notMem (h : ∀ s ∈ ss, s.addr ≠ i) : put m ss i = m i := by
  rw [put_eq, lastStored_eq_none h]
  rfl

theorem exists_of_lastStored {b : UInt8} (h : lastStored ss i = some b) :
    ∃ s ∈ ss, s.addr = i := by
  by_contra hc
  push Not at hc
  rw [lastStored_eq_none hc] at h
  cases h

theorem exists_lastStored {s : Store} (h : s ∈ ss) : ∃ b, lastStored ss s.addr = some b := by
  induction ss using List.reverseRecOn with
  | nil => contradiction
  | append_singleton ss t ih =>
    rw [lastStored_concat]
    by_cases heq : s.addr = t.addr
    · exact ⟨t.byte, if_pos heq⟩
    · have hs : s ∈ ss := by
        rcases List.mem_append.mp h with hs | hs
        · exact hs
        · exact absurd (congrArg Store.addr (List.mem_singleton.mp hs)) heq
      rw [if_neg heq]
      exact ih hs

/-! ### Words -/

theorem mem_word {s : Store} (h : s ∈ word i w v) : i ≤ s.addr ∧ s.addr < i + w := by
  obtain ⟨k, hk, rfl⟩ := List.mem_map.mp h
  have := List.mem_range.mp hk
  simp only
  omega

theorem word_succ (i w v : ℕ) : word i (w + 1) v = ⟨i, UInt8.ofNat v⟩ :: word (i + 1) w (v / 256) := by
  rw [word, List.range_succ_eq_map, List.map_cons, List.map_map]
  simp only [pow_zero, Nat.div_one, Nat.add_zero, word]
  congr 1
  refine List.map_congr_left fun k _ => ?_
  simp only [Function.comp_apply, Nat.succ_eq_add_one, pow_succ', Nat.div_div_eq_div_mul]
  congr 1
  omega

theorem load_congr (h : ∀ j, i ≤ j → j < i + w → m j = m' j) : load m i w = load m' i w := by
  induction w generalizing i with
  | zero => rfl
  | succ w ih =>
    rw [load, load, h i (by omega) (by omega), ih fun j h1 h2 => h j (by omega) (by omega)]

/-- Stores elsewhere leave a word alone. -/
theorem load_put (h : ∀ s ∈ ss, s.addr < i ∨ i + w ≤ s.addr) :
    load (put m ss) i w = load m i w := by
  refine load_congr fun j h1 h2 => put_of_notMem fun s hs => ?_
  have := h s hs
  omega

/-- A copy elsewhere leaves a byte alone. -/
theorem copy_of_outside {n k : ℕ} {src : ℕ → UInt8} (h : k < i ∨ i + n ≤ k) :
    copy m i n src k = m k :=
  if_neg (by omega)

/-- A copy elsewhere leaves a word alone. -/
theorem load_copy {n : ℕ} {src : ℕ → UInt8} (h : j + w ≤ i ∨ i + n ≤ j) :
    load (copy m i n src) j w = load m j w :=
  load_congr fun _ _ _ => copy_of_outside (by omega)

/-- A load reads the word that was stored. -/
theorem load_put_word (hv : v < 256 ^ w) : load (put m (word i w v)) i w = v := by
  induction w generalizing i v m with
  | zero =>
    simp only [pow_zero] at hv
    simp only [load]
    omega
  | succ w ih =>
    have hb : put m (word i (w + 1) v) i = UInt8.ofNat v := by
      rw [word_succ, ← List.singleton_append, put_append, put_of_notMem]
      · simp [put]
      · intro s hs
        have := mem_word hs
        omega
    have hdiv : v / 256 < 256 ^ w := by
      rw [pow_succ] at hv
      exact Nat.div_lt_of_lt_mul (by omega)
    have hrest : load (put m (word i (w + 1) v)) (i + 1) w = v / 256 := by
      rw [word_succ, ← List.singleton_append, put_append]
      exact ih hdiv
    rw [load, hb, hrest]
    simp only [UInt8.toNat_ofNat']
    omega

/-- Storing a word elsewhere leaves a word alone. -/
theorem load_put_word_of_outside {w' : ℕ} (h : j + w' ≤ i ∨ i + w ≤ j) :
    load (put m (word i w v)) j w' = load m j w' := by
  refine load_put fun s hs => ?_
  have := mem_word hs
  omega

/-- Equal bytes are equal words, wherever they are. -/
theorem load_eq_load (h : ∀ k < w, m (i + k) = m' (j + k)) :
    load m i w = load m' j w := by
  induction w generalizing i j with
  | zero => rfl
  | succ w ih =>
    have h0 : m i = m' j := h 0 (Nat.succ_pos w)
    rw [load, load, h0]
    refine congrArg (_ + 256 * ·) (ih fun k hk => ?_)
    rw [Nat.add_right_comm i, Nat.add_right_comm j]
    exact h (k + 1) (Nat.succ_lt_succ hk)

/-- Equal words have equal bytes. -/
theorem byte_of_load_eq {k : ℕ} (h : load m i w = load m' j w) (hk : k < w) :
    m (i + k) = m' (j + k) := by
  induction w generalizing i j k with
  | zero => omega
  | succ w ih =>
    have h1 := (m i).toNat_lt
    have h2 := (m' j).toNat_lt
    rw [load, load] at h
    rcases k with _ | k
    · show m i = m' j
      exact UInt8.toNat_inj.mp (by omega)
    · have := ih (i := i + 1) (j := j + 1) (by omega) (k := k) (by omega)
      rwa [Nat.add_right_comm i, Nat.add_right_comm j] at this

theorem load_lt (m : ℕ → UInt8) (i w : ℕ) : load m i w < 256 ^ w := by
  induction w generalizing i with
  | zero => exact Nat.one_pos
  | succ w ih =>
    have h1 := (m i).toNat_lt
    have h2 := ih (i + 1)
    rw [load, pow_succ]
    omega

/-- The number whose bytes are `bs`, the lowest first. -/
def ofBytes (bs : List UInt8) : ℕ := load (fun k => bs.getD k 0) 0 bs.length

/-- Storing bytes stores each of them. -/
theorem put_word_ofBytes {bs : List UInt8} {k : ℕ} (hk : k < bs.length) :
    put m (word i bs.length (ofBytes bs)) (i + k) = bs.getD k 0 := by
  have hload : load (put m (word i bs.length (ofBytes bs))) i bs.length = ofBytes bs :=
    load_put_word (load_lt _ _ _)
  have hbyte := byte_of_load_eq (j := 0) (hload.trans rfl) hk
  rwa [Nat.zero_add] at hbyte

/-! ### Shifted stores -/

theorem put_shift (m : ℕ → UInt8) (ss : List Store) (p i : ℕ) :
    put m (ss.map (Store.shift p)) (p + i) = put (fun k => m (p + k)) ss i := by
  induction ss using List.reverseRecOn with
  | nil => rfl
  | append_singleton ss s ih =>
    rw [List.map_append, put_append, put_append]
    simp only [List.map_cons, List.map_nil, put, List.foldl_cons, List.foldl_nil, Store.shift,
      Nat.add_left_cancel_iff]
    split
    · rfl
    · exact ih

theorem shift_word (p i w v : ℕ) : (word i w v).map (Store.shift p) = word (p + i) w v := by
  simp [word, Store.shift, Nat.add_assoc]

/-! ### Memories that hold what was stored -/

theorem Holds.put (h : Holds m ss) : Holds (put m ts) (ss ++ ts) := by
  intro i b hb
  rw [put_eq]
  rw [lastStored_append] at hb
  cases hl : lastStored ts i with
  | none =>
    rw [hl, Option.none_or] at hb
    exact h i b hb
  | some c =>
    rw [hl, Option.some_or, Option.some_inj] at hb
    exact hb

theorem Holds.nil : Holds m [] := nofun

/-- Only the bytes stored to matter. -/
theorem Holds.congr (h : Holds m ss) (heq : ∀ s ∈ ss, m' s.addr = m s.addr) : Holds m' ss := by
  intro i b hb
  obtain ⟨s, hs, rfl⟩ := exists_of_lastStored hb
  rw [heq s hs]
  exact h _ b hb

/-- A word that was stored and not overwritten is read back. -/
theorem Holds.load_word (h : Holds m (ss ++ word i w v ++ ts)) (hv : v < 256 ^ w)
    (hts : ∀ s ∈ ts, s.addr < i ∨ i + w ≤ s.addr) : load m i w = v := by
  rw [← load_put_word (m := m) (i := i) hv]
  refine load_congr fun j h1 h2 => ?_
  have hmem : (⟨j, UInt8.ofNat (v / 256 ^ (j - i))⟩ : Store) ∈ word i w v :=
    List.mem_map.mpr ⟨j - i, List.mem_range.mpr (by omega), by rw [Nat.add_sub_cancel' h1]⟩
  obtain ⟨b, hb⟩ := exists_lastStored hmem
  have hnone : lastStored ts j = none := by
    refine lastStored_eq_none fun s hs heq => ?_
    have := hts s hs
    omega
  have hlast : lastStored (ss ++ word i w v ++ ts) j = some b := by
    rw [lastStored_append, lastStored_append, hnone, hb]
    rfl
  rw [h j b hlast, put_eq, hb]
  rfl

end Bytes
