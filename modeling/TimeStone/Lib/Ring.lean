/-
Counters over a ring of `n` bytes.

A log keeps ever-growing byte counters; the byte of counter `c` lives at ring
index `c % n`.  Two counters less than `n` apart are different bytes
(`Ring.index_inj`), and a block that does not cross the end of the ring covers
the consecutive indices after its start (`Ring.index_add`).  Together they say
that a block appended inside the capacity of the ring touches no byte of the
window it is appended to (`Ring.append_disjoint`).

The bytes of the ring matter only where an entry header starts, so a buffer is a
map from indices to headers.  `Walk n len buf c es d` says that the bytes from
counter `c` to counter `d` decode as the entries `es`, no entry crossing the end
of the ring.

* `Walk.frame` — a walk survives every change of the buffer that leaves the
  indices of its headers alone;
* `Walk.put` — a header written behind a walk, inside the capacity of the ring,
  extends it.
-/
import Mathlib.Tactic.Common
import Mathlib.Data.Nat.ModEq

namespace Ring

variable {n h t a b c k : ℕ}

/-- Two counters of one window of at most `n` bytes have different indices. -/
theorem index_inj (ha : h ≤ a) (ha' : a < h + n) (hb : h ≤ b) (hb' : b < h + n)
    (e : a % n = b % n) : a = b := by
  rcases Nat.le_total a b with hab | hab
  · have hd : n ∣ b - a := (Nat.modEq_iff_dvd' hab).mp e
    have := Nat.eq_zero_of_dvd_of_lt hd (by omega)
    omega
  · have hd : n ∣ a - b := (Nat.modEq_iff_dvd' hab).mp e.symm
    have := Nat.eq_zero_of_dvd_of_lt hd (by omega)
    omega

/-- Inside a block that does not cross the end of the ring the index advances
with the counter. -/
theorem index_add (hk : a % n + k < n) : (a + k) % n = a % n + k := by
  rw [Nat.add_mod, Nat.mod_eq_of_lt (show k < n by omega), Nat.mod_eq_of_lt hk]

/-- Behind the end of the ring the index starts again. -/
theorem index_wrap (hkn : k < n) (hk : n ≤ a % n + k) : (a + k) % n = a % n + k - n := by
  have hlt : a % n < n := Nat.mod_lt _ (by omega)
  rw [Nat.add_mod, Nat.mod_eq_of_lt hkn, Nat.mod_eq_sub_mod hk, Nat.mod_eq_of_lt (by omega)]

/-- A block of `k` bytes that ends exactly at the end of the ring leaves the
counter at index `0`. -/
theorem index_end (hk : a % n + k = n) : (a + k) % n = 0 := by
  rw [Nat.add_mod]
  rcases Nat.lt_or_ge k n with h | h
  · rw [Nat.mod_eq_of_lt h, hk, Nat.mod_self]
  · have hk0 : a % n = 0 := by omega
    have hkn : k = n := by omega
    rw [hk0, hkn]
    simp

/-- A block of `k` bytes appended at `t` to the window `[h, t)`, inside the
capacity of the ring, covers the index of no counter of the window. -/
theorem append_disjoint (hc : h ≤ c) (hct : c < t) (hcap : t + k ≤ h + n)
    (hend : t % n + k ≤ n) : ¬ (t % n ≤ c % n ∧ c % n < t % n + k) := by
  rintro ⟨h1, h2⟩
  obtain ⟨i, hi⟩ : ∃ i, c % n = t % n + i := ⟨c % n - t % n, by omega⟩
  have hidx : (t + i) % n = c % n := by
    rw [hi]
    exact index_add (by omega)
  have := index_inj (n := n) (h := h) (by omega) (by omega) hc (by omega) hidx
  omega

/-- The index does not drop exactly when a block shorter than the ring stays
before its end. -/
theorem index_lt_iff (hk : 0 < k) (hkn : k < n) :
    (a + k) % n < a % n ↔ n ≤ a % n + k := by
  have hlt : a % n < n := Nat.mod_lt _ (by omega)
  constructor
  · intro h
    by_contra hc
    rw [index_add (by omega)] at h
    omega
  · intro h
    rw [index_wrap hkn h]
    omega

/-! ### Decoding the entries of a ring -/

variable {H : Type*} {len : H → ℕ} {buf buf' : ℕ → Option H} {es xs ys : List (ℕ × H)}
  {d m x y : ℕ} {e f : H}

/-- The bytes from counter `c` to counter `d` decode as the entries `es`, each
listed with its counter. -/
def Walk (n : ℕ) (len : H → ℕ) (buf : ℕ → Option H) : ℕ → List (ℕ × H) → ℕ → Prop
  | c, [], d => c = d
  | c, (x, e) :: es, d =>
    x = c ∧ buf (c % n) = some e ∧ 0 < len e ∧ c % n + len e ≤ n ∧
      Walk n len buf (c + len e) es d

theorem Walk.append (h1 : Walk n len buf c xs m) (h2 : Walk n len buf m ys d) :
    Walk n len buf c (xs ++ ys) d := by
  induction xs generalizing c with
  | nil =>
    have hc : c = m := h1
    subst hc
    exact h2
  | cons p xs ih =>
    obtain ⟨hx, hat, hpos, hend, hrest⟩ := h1
    exact ⟨hx, hat, hpos, hend, ih hrest⟩

theorem Walk.le (h : Walk n len buf c es d) : c ≤ d := by
  induction es generalizing c with
  | nil => exact Nat.le_of_eq h
  | cons p es ih =>
    obtain ⟨-, -, -, -, hrest⟩ := h
    have := ih hrest
    omega

/-- A walk starts where its first entry does, or where it ends. -/
theorem Walk.start_eq {c' : ℕ} (h : Walk n len buf c es d) (h' : Walk n len buf' c' es d) :
    c = c' := by
  cases es with
  | nil => exact Eq.trans h (Eq.symm h')
  | cons p es => exact h.1.symm.trans h'.1

/-- An entry of a walk lies inside it, and is what the ring holds there. -/
theorem Walk.mem (h : Walk n len buf c es d) (hm : (x, e) ∈ es) :
    c ≤ x ∧ x + len e ≤ d ∧ buf (x % n) = some e ∧ 0 < len e := by
  induction es generalizing c with
  | nil => simp at hm
  | cons p es ih =>
    obtain ⟨hx, hat, hpos, hend, hrest⟩ := h
    rcases List.mem_cons.mp hm with rfl | hm
    · simp only at hx
      subst hx
      exact ⟨le_refl _, hrest.le, hat, hpos⟩
    · obtain ⟨h1, h2⟩ := ih hrest hm
      exact ⟨by omega, h2⟩

/-- No entry of a walk crosses the end of the ring. -/
theorem Walk.index_le (h : Walk n len buf c es d) (hm : (x, e) ∈ es) :
    x % n + len e ≤ n := by
  induction es generalizing c with
  | nil => simp at hm
  | cons p es ih =>
    obtain ⟨hx, -, -, hend, hrest⟩ := h
    rcases List.mem_cons.mp hm with rfl | hm
    · simp only at hx hend
      rw [hx]
      exact hend
    · exact ih hrest hm

/-- Every entry of a walk ends before the next ones start. -/
theorem Walk.pairwise (h : Walk n len buf c es d) :
    es.Pairwise fun p q => p.1 + len p.2 ≤ q.1 := by
  induction es generalizing c with
  | nil => exact .nil
  | cons p es ih =>
    obtain ⟨hx, -, -, -, hrest⟩ := h
    refine .cons (fun q hq => ?_) (ih hrest)
    have := (hrest.mem hq).1
    omega

/-- A walk over two parts splits where the first one ends. -/
theorem Walk.split (h : Walk n len buf c (xs ++ ys) d) :
    ∃ m, Walk n len buf c xs m ∧ Walk n len buf m ys d := by
  induction xs generalizing c with
  | nil => exact ⟨c, rfl, h⟩
  | cons p xs ih =>
    obtain ⟨hx, hat, hpos, hend, hrest⟩ := h
    obtain ⟨m, h1, h2⟩ := ih hrest
    exact ⟨m, ⟨hx, hat, hpos, hend, h1⟩, h2⟩

/-- The end of a walk is determined by its entries. -/
theorem Walk.end_eq (h : Walk n len buf c es d) :
    d = c + (es.map fun p => len p.2).sum := by
  induction es generalizing c with
  | nil =>
    have hc : c = d := h
    simp [hc]
  | cons p es ih =>
    obtain ⟨-, -, -, -, hrest⟩ := h
    rw [ih hrest, List.map_cons, List.sum_cons]
    omega

/-- A walk has at most one entry per byte. -/
theorem Walk.length_le (h : Walk n len buf c es d) : es.length ≤ d - c := by
  induction es generalizing c with
  | nil => simp
  | cons p es ih =>
    obtain ⟨-, -, hpos, -, hrest⟩ := h
    have h1 := ih hrest
    have h2 := hrest.le
    simp only [List.length_cons]
    omega

/-- The bytes of a ring decode in one way. -/
theorem Walk.unique (hx : Walk n len buf c xs d) (hy : Walk n len buf c ys d) : xs = ys := by
  induction xs generalizing c ys with
  | nil =>
    have hc : c = d := hx
    cases ys with
    | nil => rfl
    | cons q ys =>
      obtain ⟨-, -, hpos, -, hrest⟩ := hy
      have := hrest.le
      omega
  | cons p xs ih =>
    obtain ⟨hp, hat, hpos, -, hrest⟩ := hx
    cases ys with
    | nil =>
      have hc : c = d := hy
      have := hrest.le
      omega
    | cons q ys =>
      obtain ⟨hq, hat', -, -, hrest'⟩ := hy
      have he : p.2 = q.2 := Option.some_inj.mp (hat.symm.trans hat')
      rw [← he] at hrest'
      rw [Prod.ext (hp.trans hq.symm) he, ih hrest hrest']

/-- A walk depends on the buffer only at the indices of its headers. -/
theorem Walk.frame (h : Walk n len buf c es d)
    (hbuf : ∀ p ∈ es, buf' (p.1 % n) = buf (p.1 % n)) : Walk n len buf' c es d := by
  induction es generalizing c with
  | nil => exact h
  | cons p es ih =>
    obtain ⟨hx, hat, hpos, hend, hrest⟩ := h
    refine ⟨hx, ?_, hpos, hend, ih hrest fun q hq => hbuf q (List.mem_cons_of_mem _ hq)⟩
    have := hbuf p List.mem_cons_self
    rw [hx] at this
    rw [this]
    exact hat

/-- A header written at the end of a walk extends it, when the ring has room for
its entry and the entry does not cross the end of the ring.  Only the bytes of
the entry may have changed otherwise. -/
theorem Walk.put (hw : Walk n len buf c es t) (he : 0 < len e)
    (hroom : t + len e ≤ c + n) (hend : t % n + len e ≤ n) (hat : buf' (t % n) = some e)
    (hbuf : ∀ i, ¬ (t % n ≤ i ∧ i < t % n + len e) → buf' i = buf i) :
    Walk n len buf' c (es ++ [(t, e)]) (t + len e) := by
  have hold : Walk n len buf' c es t := by
    refine hw.frame fun p hp => hbuf _ ?_
    obtain ⟨h1, h2, -, h4⟩ := hw.mem hp
    exact append_disjoint h1 (by omega) hroom hend
  exact hold.append ⟨rfl, hat, he, hend, rfl⟩

end Ring
