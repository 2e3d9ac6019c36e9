/-
The log as a queue.

The bytes from head to tail decode as a list of items, the entries still in the queue and
the fillers between them (`Good`).  The items of a log with a filler that did not leave
room for the entry behind it reach further than the ring is long: what keeps the queue is
that an entry ends, and a filler starts, at most one ring length after the head.

* `Good.makeRoom`, `Good.reserve` — the two halves of `nvlog_enq` append an item;
* `Good.deq`, `Good.peek` — what `nvlog_deq` and `nvlog_peek_head` find at the head;
* `Good.fill` — the owner's stores change only the entry they go to;
* `fifo_of_reach` — in every run in which `nvlog_enq` is called as `EnqOk` says, the log
  is a queue;
* `enq_overwrites_head` — without that condition it is not;
* `failsUnchanged_iff` — when a failing `nvlog_enq` leaves the log as it was.
-/
import TimeStone.NvlogBytes
import TimeStone.Lib.Ring
import Mathlib.Data.List.Forall2
import Mathlib.Data.List.Pairwise

namespace TimeStone.ByteLog

open Bytes

/-- What the reader of the log sees of a header. -/
@[ext]
structure Hdr where
  size : ℕ
  bogus : Bool

/-- The header at address `i`. -/
def hdrAt (b : ℕ → UInt8) (i : ℕ) : Hdr := ⟨sizeAt b i, decide (typeAt b i = typeBogus)⟩

/-- The bytes from counter `c` to counter `d` decode as the items `es`. -/
abbrev Walk (L : Nvlog) : ℕ → List (ℕ × Hdr) → ℕ → Prop :=
  Ring.Walk L.logSize Hdr.size fun i => some (hdrAt L.buffer i)

/-- The entries among the items. -/
def entries (items : List (ℕ × Hdr)) : List (ℕ × Hdr) := items.filter fun p => !p.2.bogus

/-- An item of a log of `n` bytes whose head is at `head`. -/
structure ItemOk (n head : ℕ) (p : ℕ × Hdr) : Prop where
  cnt : 64 ∣ p.1
  size : 64 ∣ p.2.size
  /-- A filler starts inside the ring and ends it. -/
  bogus : p.2.bogus = true → p.1 % n ≠ 0 ∧ (p.1 + p.2.size) % n = 0 ∧ p.1 ≤ head + n
  entry : p.2.bogus = false → p.1 + p.2.size ≤ head + n

/-- The item `p` is the entry `e`, and holds what was stored to it. -/
structure EntryOk (n : ℕ) (b : ℕ → UInt8) (e : Entry) (p : ℕ × Hdr) : Prop where
  ptr : e.ptr = p.1 % n
  size : p.2.size = nvlogEntrySize e.objSize
  fits : sizeofNvlogEntryHdr + e.objSize ≤ nvlogEntrySize e.objSize
  stores : ∀ s ∈ e.stores, s.addr < p.2.size
  holds : Holds (fun i => b (e.ptr + i)) e.stores

/-- The log decodes as `items`, whose entries are the pending ones. -/
structure Good (L : Nvlog) (items : List (ℕ × Hdr)) (pend : List Entry) : Prop where
  pow : ∃ k < 64, L.logSize = 2 ^ k
  head : 64 ∣ L.headCnt
  tail : 64 ∣ L.tailCnt
  walk : Walk L L.headCnt items L.tailCnt
  item : ∀ p ∈ items, ItemOk L.logSize L.headCnt p
  /-- An item one ring length after the head comes from a filler that was written over a
  filler at the head. -/
  full : ∀ p ∈ items, p.1 < L.headCnt + L.logSize ∨
    ∃ q, items.head? = some q ∧ q.2.bogus = true
  cap : L.tailCnt ≤ L.headCnt + L.logSize ∨ L.tailCnt % L.logSize = 0
  pend : List.Forall₂ (EntryOk L.logSize L.buffer) pend (entries items)

variable {L : Nvlog} {items : List (ℕ × Hdr)} {pend : List Entry} {p q : ℕ × Hdr} {n : ℕ}

/-! ### Related lists -/

section Related

variable {α β : Type*} {R S : α → β → Prop} {l : List α} {l' : List β}

theorem forall₂_imp_mem (h : List.Forall₂ R l l') (hS : ∀ a, ∀ b ∈ l', R a b → S a b) :
    List.Forall₂ S l l' := by
  induction h with
  | nil => exact .nil
  | cons hr _ ih =>
    exact .cons (hS _ _ List.mem_cons_self hr)
      (ih fun a b hb => hS a b (List.mem_cons_of_mem _ hb))

/-- Replace one element, and weaken the relation of the others. -/
theorem forall₂_set (h : List.Forall₂ R l l') {k : ℕ} {a' : α}
    (hk : ∀ b, l'[k]? = some b → S a' b)
    (hS : ∀ j a b, j ≠ k → l'[j]? = some b → R a b → S a b) :
    List.Forall₂ S (l.set k a') l' := by
  induction h generalizing k with
  | nil => exact .nil
  | cons hr _ ih =>
    cases k with
    | zero =>
      refine .cons (hk _ rfl) (forall₂_imp_mem ‹_› fun a b hb => ?_)
      obtain ⟨j, hj, rfl⟩ := List.getElem_of_mem hb
      exact hS (j + 1) a _ (by omega) (by simp [hj])
    | succ k =>
      refine .cons (hS 0 _ _ (by omega) rfl hr) (ih (fun b hb => hk b hb) ?_)
      intro j a b hj hb
      exact hS (j + 1) a b (by omega) hb

end Related

/-! ### The headers in memory -/

theorem mem_bogusHdr {i size : ℕ} {s : Store} (h : s ∈ bogusHdr i size) :
    i ≤ s.addr ∧ s.addr < i + 16 := by
  simp only [bogusHdr, List.mem_append, sizeofNvlogEntryHdr] at h
  rcases h with (h | h) | h <;> have := mem_word h <;> omega

theorem mem_entryHdr {i size : ℕ} {s : Store} (h : s ∈ entryHdr i size) :
    i ≤ s.addr ∧ s.addr < i + 16 := by
  simp only [entryHdr, List.mem_append, sizeofNvlogEntryHdr] at h
  rcases h with (h | h) | h <;> have := mem_word h <;> omega

/-- The filler that was stored is read back. -/
theorem hdrAt_bogusHdr {i size : ℕ} (b : ℕ → UInt8) (h : size < 2 ^ 32) :
    hdrAt (put b (bogusHdr i size)) i = ⟨size, true⟩ := by
  have hsize : sizeAt (put b (bogusHdr i size)) i = size := by
    rw [sizeAt, bogusHdr, put_append, load_put, put_append]
    · exact load_put_word (by omega)
    · intro s hs
      have := mem_word hs
      omega
  have htype : typeAt (put b (bogusHdr i size)) i = typeBogus := by
    rw [typeAt, bogusHdr, put_append]
    exact load_put_word (by decide)
  rw [hdrAt, hsize, htype]
  rfl

/-- The entry that was stored is read back. -/
theorem hdrAt_entryHdr {i size : ℕ} (b : ℕ → UInt8) (h : size < 2 ^ 32) :
    hdrAt (put b (entryHdr i size)) i = ⟨size, false⟩ := by
  have hsize : sizeAt (put b (entryHdr i size)) i = size := by
    rw [sizeAt, entryHdr, put_append]
    exact load_put_word (by omega)
  have htype : typeAt (put b (entryHdr i size)) i = 0 := by
    -- the field is the zeroes of the first store
    rw [typeAt, entryHdr, put_append, load_put, put_append, load_put]
    · have h0 : ∀ j, i + 12 ≤ j → j < i + 12 + 2 →
          put b (word i sizeofNvlogEntryHdr 0) j = (fun _ => 0 : ℕ → UInt8) j := by
        intro j h1 h2
        obtain ⟨k, rfl⟩ : ∃ k, j = i + k := ⟨j - i, by omega⟩
        have := put_shift b (word 0 sizeofNvlogEntryHdr 0) i k
        rw [shift_word, Nat.add_zero] at this
        rw [this, put_eq]
        obtain rfl | rfl : k = 12 ∨ k = 13 := by omega
        · rfl
        · rfl
      rw [load_congr h0]
      rfl
    · intro s hs
      have := mem_word hs
      omega
    · intro s hs
      have := mem_word hs
      omega
  rw [hdrAt, hsize, htype]
  rfl

/-- Stores outside the header leave it alone. -/
theorem hdrAt_put {i : ℕ} {ss : List Store} {b : ℕ → UInt8}
    (h : ∀ s ∈ ss, s.addr < i + 8 ∨ i + 14 ≤ s.addr) : hdrAt (put b ss) i = hdrAt b i := by
  have hsize : sizeAt (put b ss) i = sizeAt b i := by
    refine load_put fun s hs => ?_
    have := h s hs
    omega
  have htype : typeAt (put b ss) i = typeAt b i := by
    refine load_put fun s hs => ?_
    have := h s hs
    omega
  rw [hdrAt, hsize, htype, hdrAt]

/-! ### Where the items are -/

theorem dvd_of_pow {e : ℕ} (h : ∃ k < 64, n = 2 ^ k) (he : 64 ≤ e) (hle : e ≤ n) : 64 ∣ n := by
  obtain ⟨k, -, rfl⟩ := h
  have hk : 6 ≤ k := by
    by_contra hc
    have : 2 ^ k ≤ 2 ^ 5 := Nat.pow_le_pow_right (by omega) (by omega)
    omega
  exact Nat.pow_dvd_pow 2 hk

/-- The filler that starts at `c` and ends the ring has one size. -/
theorem bogus_size {c k : ℕ} (hpos : 0 < k) (hend : c % n + k ≤ n) (h0 : (c + k) % n = 0) :
    k = n - c % n := by
  by_contra hc
  have := Ring.index_add (a := c) (n := n) (k := k) (by omega)
  omega

/-- The facts about an item of the log. -/
theorem Good.mem (h : Good L items pend) (hp : p ∈ items) :
    L.headCnt ≤ p.1 ∧ p.1 + p.2.size ≤ L.tailCnt ∧ 64 ≤ p.2.size ∧
      hdrAt L.buffer (p.1 % L.logSize) = p.2 ∧ p.1 % L.logSize + p.2.size ≤ L.logSize ∧
      64 ∣ L.logSize := by
  obtain ⟨h1, h2, h3, h4⟩ := h.walk.mem hp
  have h5 := h.walk.index_le hp
  have h6 := Nat.le_of_dvd h4 (h.item p hp).size
  exact ⟨h1, h2, h6, Option.some_inj.mp h3, h5, dvd_of_pow h.pow h6 (by omega)⟩

theorem mem_entries : p ∈ entries items ↔ p ∈ items ∧ p.2.bogus = false := by
  simp [entries]

/-- The item of a pending entry. -/
theorem Good.item_of_pend (h : Good L items pend) {e : Entry} (he : e ∈ pend) :
    ∃ p ∈ entries items, EntryOk L.logSize L.buffer e p := by
  obtain ⟨k, hk, rfl⟩ := List.getElem_of_mem he
  have hlen := h.pend.length_eq
  exact ⟨(entries items)[k], List.getElem_mem _, List.Forall₂.get h.pend hk (by omega)⟩

/-- When the head of the log is a filler, the entries start behind it. -/
theorem Good.behind_bogus (h : Good L items pend) (hq : items.head? = some q)
    (hb : q.2.bogus = true) (hp : p ∈ entries items) : L.headCnt + 64 ≤ p.1 := by
  obtain ⟨hp, hpe⟩ := mem_entries.mp hp
  cases items with
  | nil => simp at hp
  | cons r rest =>
    obtain rfl : r = q := by simpa using hq
    have hr := h.mem List.mem_cons_self
    rcases List.mem_cons.mp hp with rfl | hp
    · rw [hb] at hpe
      cases hpe
    · have := (List.pairwise_cons.mp h.walk.pairwise).1 p hp
      omega

/-- The line at the tail has no byte of a pending entry, as long as the tail is in the ring
or the head is a filler. -/
theorem Good.tail_apart (h : Good L items pend) (hn : 64 ∣ L.logSize) (h0 : 0 < L.logSize)
    (hfull : L.tailCnt < L.headCnt + L.logSize ∨
      L.tailCnt = L.headCnt + L.logSize ∧ ∃ q, items.head? = some q ∧ q.2.bogus = true)
    (hp : p ∈ entries items) {i : ℕ} (hi : i < p.2.size) :
    ¬ (L.tailCnt % L.logSize ≤ p.1 % L.logSize + i ∧
      p.1 % L.logSize + i < L.tailCnt % L.logSize + 64) := by
  obtain ⟨h1, h2, h3, h4, h5, -⟩ := h.mem (mem_entries.mp hp).1
  have hroom : L.tailCnt + 64 ≤ p.1 + i + L.logSize := by
    rcases hfull with hlt | ⟨heq, q, hq, hb⟩
    · have := h.head
      have := h.tail
      omega
    · have := h.behind_bogus hq hb hp
      omega
  have hend : L.tailCnt % L.logSize + 64 ≤ L.logSize := by
    have h6 := (Nat.dvd_mod_iff hn).mpr h.tail
    have := Nat.mod_lt L.tailCnt h0
    omega
  have hidx : (p.1 + i) % L.logSize = p.1 % L.logSize + i := Ring.index_add (by omega)
  rw [← hidx]
  exact Ring.append_disjoint (Nat.le_refl _) (by omega) hroom hend

/-! ### Changes of the buffer -/

/-- A log keeps its items when their headers and the bytes of the entries are kept. -/
theorem Good.frame (h : Good L items pend) {b : ℕ → UInt8}
    (hh : ∀ p ∈ items, hdrAt b (p.1 % L.logSize) = hdrAt L.buffer (p.1 % L.logSize))
    (hb : ∀ p ∈ entries items, ∀ i < p.2.size,
      b (p.1 % L.logSize + i) = L.buffer (p.1 % L.logSize + i)) :
    Good { L with buffer := b } items pend where
  pow := h.pow
  head := h.head
  tail := h.tail
  walk := h.walk.frame fun p hp => congrArg some (hh p hp)
  item := h.item
  full := h.full
  cap := h.cap
  pend := by
    refine forall₂_imp_mem h.pend fun e p hp he => ?_
    refine ⟨he.ptr, he.size, he.fits, he.stores, he.holds.congr fun s hs => ?_⟩
    rw [he.ptr]
    exact hb p hp _ (he.stores s hs)

/-- The head of a log of one ring length is an item. -/
theorem Good.first (h : Good L items pend) (heq : L.tailCnt = L.headCnt + L.logSize)
    (h0 : 0 < L.logSize) : ∃ q, items.head? = some q ∧
      hdrAt L.buffer (L.headCnt % L.logSize) = q.2 := by
  have hw := h.walk
  cases items with
  | nil =>
    have : L.headCnt = L.tailCnt := hw
    omega
  | cons q rest =>
    obtain ⟨-, hat, -⟩ := hw
    exact ⟨q, rfl, Option.some_inj.mp hat⟩

theorem Good.first_bogus (h : Good L items pend) (heq : L.tailCnt = L.headCnt + L.logSize)
    (h0 : 0 < L.logSize) (hb : (hdrAt L.buffer (L.headCnt % L.logSize)).bogus = true) :
    ∃ q, items.head? = some q ∧ q.2.bogus = true := by
  obtain ⟨q, hq, hat⟩ := h.first heq h0
  exact ⟨q, hq, hat ▸ hb⟩

/-- Stores at the tail that make a header there append an item, if they change no header of
an item. -/
theorem Good.append (h : Good L items pend) {ss : List Store} {hd : Hdr} {new : List Entry}
    (hn : 64 ∣ L.logSize) (h0 : 0 < L.logSize)
    (hss : ∀ s ∈ ss, L.tailCnt % L.logSize ≤ s.addr ∧ s.addr < L.tailCnt % L.logSize + 16)
    (hhd : hdrAt (put L.buffer ss) (L.tailCnt % L.logSize) = hd) (hpos : 0 < hd.size)
    (hend : L.tailCnt % L.logSize + hd.size ≤ L.logSize)
    (hok : ItemOk L.logSize L.headCnt (L.tailCnt, hd))
    (hfull : L.tailCnt < L.headCnt + L.logSize ∨
      L.tailCnt = L.headCnt + L.logSize ∧ hd.bogus = true ∧
        (hdrAt L.buffer (L.headCnt % L.logSize)).bogus = true)
    (hcap : L.tailCnt + hd.size ≤ L.headCnt + L.logSize ∨
      (L.tailCnt + hd.size) % L.logSize = 0)
    (hnew : List.Forall₂ (EntryOk L.logSize (put L.buffer ss)) new
      (entries [(L.tailCnt, hd)])) :
    Good (L.apply ⟨ss, L.tailCnt + hd.size⟩) (items ++ [(L.tailCnt, hd)]) (pend ++ new) := by
  have hfull' : L.tailCnt < L.headCnt + L.logSize ∨
      L.tailCnt = L.headCnt + L.logSize ∧ ∃ q, items.head? = some q ∧ q.2.bogus = true :=
    hfull.imp_right fun ⟨heq, _, hb⟩ => ⟨heq, h.first_bogus heq h0 hb⟩
  have hold : Good { L with buffer := put L.buffer ss } items pend := by
    refine h.frame (fun p hp => ?_) fun p hp i hi => put_of_notMem fun s hs heq => ?_
    · obtain ⟨h1, h2, h3, h4, h5, -⟩ := h.mem hp
      rcases Nat.lt_or_ge L.tailCnt (p.1 + L.logSize) with hlt | hge
      · -- the header of `p` is on another line
        have hne : p.1 % L.logSize ≠ L.tailCnt % L.logSize := by
          intro heq
          have := Ring.index_inj (h := p.1) (Nat.le_refl _) (by omega) (by omega) hlt heq
          omega
        have ha := (Nat.dvd_mod_iff hn).mpr (h.item p hp).cnt
        have ht := (Nat.dvd_mod_iff hn).mpr h.tail
        refine hdrAt_put fun s hs => ?_
        have := hss s hs
        omega
      · -- the same filler is written over the one at the head
        obtain ⟨heq, hb, hbq⟩ := hfull.resolve_left (by omega)
        have hpc : p.1 = L.headCnt := by omega
        have hidx : L.tailCnt % L.logSize = p.1 % L.logSize := by
          rw [heq, hpc, Nat.add_mod_right]
        have hpb : p.2.bogus = true := by
          rw [← h4, hpc]
          exact hbq
        have hs1 := bogus_size (by omega) h5 ((h.item p hp).bogus hpb).2.1
        have hs2 := bogus_size hpos hend (hok.bogus hb).2.1
        rw [hidx, ← hs1] at hs2
        rw [← hidx, hhd, hidx, h4]
        exact Hdr.ext hs2 (hb.trans hpb.symm)
    · have := h.tail_apart hn h0 hfull' hp hi
      have := hss s hs
      omega
  have hhead : ∀ q, items.head? = some q → (items ++ [(L.tailCnt, hd)]).head? = some q := by
    intro q hq
    cases items with
    | nil => cases hq
    | cons r rest => exact hq
  exact {
    pow := h.pow
    head := h.head
    tail := (Nat.dvd_add_right h.tail).mpr hok.size
    walk := hold.walk.append ⟨rfl, congrArg some hhd, hpos, hend, rfl⟩
    item := by
      intro p hp
      rcases List.mem_append.mp hp with hp | hp
      · exact h.item p hp
      · obtain rfl := List.mem_singleton.mp hp
        exact hok
    full := by
      intro p hp
      rcases List.mem_append.mp hp with hp | hp
      · exact (h.full p hp).imp_right fun ⟨q, hq, hb⟩ => ⟨q, hhead q hq, hb⟩
      · obtain rfl := List.mem_singleton.mp hp
        exact hfull'.imp_right fun ⟨_, q, hq, hb⟩ => ⟨q, hhead q hq, hb⟩
    cap := hcap
    pend := by
      rw [entries, List.filter_append]
      exact List.rel_append hold.pend hnew }

/-! ### Enqueue -/

theorem nvlogEntrySize_eq (h : n + 79 < 2 ^ 32) :
    nvlogEntrySize n = (n + 79) / 64 * 64 := by
  have hu : uint (n + sizeofNvlogEntryHdr) = n + 16 :=
    Nat.mod_eq_of_lt (by simp only [sizeofNvlogEntryHdr]; omega)
  rw [nvlogEntrySize, hu, alignUintToCacheline_eq (by omega)]

/-- The filler that is appended before an entry of `entrySize` bytes. -/
def nvlogFiller (L : Nvlog) (entrySize : ℕ) : List (ℕ × Hdr) :=
  if nvlogWraps L entrySize then [(L.tailCnt, ⟨nvlogBogusSize L, true⟩)] else []

/-- The items that `nvlog_enq` appends. -/
def nvlogAdded (L : Nvlog) (objSize : ℕ) : List (ℕ × Hdr) :=
  let entrySize := nvlogEntrySize objSize
  if entrySize > L.logSize then []
  else
    let r := nvlogMakeRoom L entrySize
    nvlogFiller L entrySize ++
      if ulongSub (r.tailCnt + entrySize) L.headCnt > L.logSize then []
      else [(r.tailCnt, ⟨entrySize, false⟩)]

/-- The first half of `nvlog_enq` appends a filler if the entry needs one. -/
theorem Good.makeRoom (h : Good L items pend) {e : ℕ} (h64 : 64 ≤ e) (hlt : e < L.logSize)
    (he : e < 2 ^ 32)
    (hok : nvlogWraps L e → L.tailCnt = L.headCnt + L.logSize →
      typeAt L.buffer (nvlogIndex L L.headCnt) = typeBogus) :
    Good (L.apply (nvlogMakeRoom L e)) (items ++ nvlogFiller L e) pend ∧
      (L.apply (nvlogMakeRoom L e)).tailCnt % L.logSize + e ≤ L.logSize ∧
      ∀ s ∈ (nvlogMakeRoom L e).stores, ∀ p ∈ entries items, ∀ i < p.2.size,
        p.1 % L.logSize + i ≠ s.addr := by
  have hn := dvd_of_pow h.pow h64 hlt.le
  have hmod := Nat.mod_lt L.tailCnt (show 0 < L.logSize by omega)
  by_cases hw : nvlogWraps L e
  · rw [nvlogMakeRoom, if_pos hw, nvlogFiller, if_pos hw]
    have hok := hok hw
    rw [nvlogWraps, nvlogIndex, nvlogIndex, Ring.index_lt_iff (by omega) hlt] at hw
    have hsize : nvlogBogusSize L = L.logSize - L.tailCnt % L.logSize :=
      Nat.mod_eq_of_lt (by rw [nvlogIndex]; omega)
    have hzero : (L.tailCnt + nvlogBogusSize L) % L.logSize = 0 :=
      Ring.index_end (by omega)
    -- a tail that is further away is at the start of the ring, and needs no filler
    have hle : L.tailCnt ≤ L.headCnt + L.logSize := h.cap.resolve_right (by omega)
    have hfull : L.tailCnt < L.headCnt + L.logSize ∨
        L.tailCnt = L.headCnt + L.logSize ∧ (⟨nvlogBogusSize L, true⟩ : Hdr).bogus = true ∧
          (hdrAt L.buffer (L.headCnt % L.logSize)).bogus = true := by
      rcases hle.lt_or_eq with hlt | heq
      · exact .inl hlt
      · exact .inr ⟨heq, rfl, decide_eq_true (hok heq)⟩
    refine ⟨?_, ?_, ?_⟩
    · have hitem : ItemOk L.logSize L.headCnt (L.tailCnt, ⟨nvlogBogusSize L, true⟩) := by
        refine ⟨h.tail, ?_, fun _ => ⟨?_, hzero, hle⟩, nofun⟩
        · rw [hsize]
          exact Nat.dvd_sub hn ((Nat.dvd_mod_iff hn).mpr h.tail)
        · simp only
          omega
      have hg := h.append hn (by omega) (fun s hs => mem_bogusHdr hs)
        (hdrAt_bogusHdr _ (by omega)) (by simp only; omega) (by simp only; omega) hitem hfull
        (.inr hzero) .nil
      rw [List.append_nil] at hg
      exact hg
    · show (L.tailCnt + nvlogBogusSize L) % L.logSize + e ≤ L.logSize
      omega
    · intro s hs p hp i hi heq
      have hs := mem_bogusHdr hs
      refine h.tail_apart hn (by omega) ?_ hp hi ?_
      · refine hfull.imp_right fun ⟨heq, _, hb⟩ => ⟨heq, h.first_bogus heq (by omega) hb⟩
      · rw [nvlogIndex] at hs
        omega
  · rw [nvlogMakeRoom, if_neg hw, nvlogFiller, if_neg hw, List.append_nil]
    refine ⟨h, ?_, nofun⟩
    rw [nvlogWraps, nvlogIndex, nvlogIndex, Ring.index_lt_iff (by omega) hlt] at hw
    show L.tailCnt % L.logSize + e ≤ L.logSize
    omega

/-- The second half of `nvlog_enq` appends an entry. -/
theorem Good.reserve (h : Good L items pend) {objSize : ℕ} (hobj : objSize + 79 < 2 ^ 32)
    (hend : L.tailCnt % L.logSize + nvlogEntrySize objSize ≤ L.logSize)
    (hcap : L.tailCnt + nvlogEntrySize objSize ≤ L.headCnt + L.logSize) :
    Good (L.apply ⟨entryHdr (nvlogIndex L L.tailCnt) (nvlogEntrySize objSize),
        L.tailCnt + nvlogEntrySize objSize⟩)
      (items ++ [(L.tailCnt, ⟨nvlogEntrySize objSize, false⟩)])
      (pend ++ [⟨nvlogIndex L L.tailCnt, objSize, entryHdr 0 (nvlogEntrySize objSize)⟩]) := by
  have he := nvlogEntrySize_eq hobj
  have hn := dvd_of_pow (e := nvlogEntrySize objSize) h.pow (by omega) (by omega)
  refine h.append hn (by omega)
    (fun s hs => mem_entryHdr hs) (hdrAt_entryHdr _ (by omega)) (by simp only; omega) hend ?_
    (.inl (by omega)) (.inl hcap) ?_
  · exact ⟨h.tail, by simp only [he]; omega, nofun, fun _ => hcap⟩
  · refine .cons ⟨rfl, rfl, ?_, ?_, ?_⟩ .nil
    · simp only [sizeofNvlogEntryHdr]
      omega
    · intro s hs
      have := mem_entryHdr hs
      simp only
      omega
    · have hshift : entryHdr (L.tailCnt % L.logSize) (nvlogEntrySize objSize) =
          (entryHdr 0 (nvlogEntrySize objSize)).map (Store.shift (L.tailCnt % L.logSize)) := by
        simp only [entryHdr, List.map_append, shift_word, Nat.add_zero]
      simp only [nvlogIndex, hshift, put_shift]
      exact Holds.nil.put

/-- An address that is in no entry item is in no pending entry. -/
theorem Good.pend_frame (h : Good L items pend) {a : ℕ}
    (ha : ∀ p ∈ entries items, ∀ i < p.2.size, p.1 % L.logSize + i ≠ a) :
    ∀ e ∈ pend, ¬ (e.ptr ≤ a ∧ a < e.ptr + nvlogEntrySize e.objSize) := by
  rintro e he ⟨h1, h2⟩
  obtain ⟨p, hp, hep⟩ := h.item_of_pend he
  rw [hep.ptr] at h1 h2
  have hsize := hep.size
  exact ha p hp (a - p.1 % L.logSize) (by omega) (by omega)

/-- The tail is at most a filler behind the end of the ring. -/
theorem Good.tail_lt (h : Good L items pend) :
    L.tailCnt < L.headCnt + L.logSize + 2 ^ 32 := by
  rcases List.eq_nil_or_concat items with rfl | ⟨front, p, rfl⟩
  · have hw : L.headCnt = L.tailCnt := h.walk
    omega
  · rw [List.concat_eq_append] at h
    have hp : p ∈ front ++ [p] := by simp
    -- the log ends where its last item does
    obtain ⟨c, -, hlast⟩ := h.walk.split
    have hend : p.1 + p.2.size = L.tailCnt := by
      obtain ⟨hc, -, -, -, ht⟩ := hlast
      rw [hc]
      exact ht
    have hsize : p.2.size < 2 ^ 32 := by
      rw [← (h.mem hp).2.2.2.1]
      exact load_lt _ _ _
    have hi := h.item p hp
    cases hb : p.2.bogus with
    | true =>
      have := (hi.bogus hb).2.2
      omega
    | false =>
      have := hi.entry hb
      omega

/-- In a log that decodes the difference of the counters does not wrap around. -/
theorem Good.over_iff (h : Good L items pend) {e : ℕ} (he : e < 2 ^ 32) :
    ulongSub ((nvlogMakeRoom L e).tailCnt + e) L.headCnt > L.logSize ↔
      L.headCnt + L.logSize < (nvlogMakeRoom L e).tailCnt + e := by
  have hlt := h.tail_lt
  have hle := h.walk.le
  obtain ⟨k, hk, hn⟩ := h.pow
  have hpow : 2 ^ k ≤ 2 ^ 63 := Nat.pow_le_pow_right (by decide) (by omega)
  have hbogus : nvlogBogusSize L < 2 ^ 32 := Nat.mod_lt _ (by decide)
  have hroom : L.tailCnt ≤ (nvlogMakeRoom L e).tailCnt ∧
      (nvlogMakeRoom L e).tailCnt < L.tailCnt + 2 ^ 32 := by
    rw [nvlogMakeRoom]
    split
    · simp only
      omega
    · simp only
      omega
  rw [ulongSub_eq (by omega) (by omega)]
  omega

/-- The log as `nvlog_enq` leaves it when it checks the capacity. -/
theorem Good.prepare (h : Good L items pend) {objSize : ℕ} (hok : EnqOk L objSize)
    (hle : nvlogEntrySize objSize ≤ L.logSize) :
    Good (L.apply (nvlogMakeRoom L (nvlogEntrySize objSize)))
        (items ++ nvlogFiller L (nvlogEntrySize objSize)) pend ∧
      (∀ s ∈ (nvlogMakeRoom L (nvlogEntrySize objSize)).stores, ∀ e ∈ pend,
        ¬ (e.ptr ≤ s.addr ∧ s.addr < e.ptr + nvlogEntrySize e.objSize)) ∧
      ((nvlogMakeRoom L (nvlogEntrySize objSize)).tailCnt + nvlogEntrySize objSize ≤
          L.headCnt + L.logSize →
        (nvlogMakeRoom L (nvlogEntrySize objSize)).tailCnt % L.logSize +
          nvlogEntrySize objSize ≤ L.logSize) := by
  obtain ⟨hobj, hfill, hwhole⟩ := hok
  have he := nvlogEntrySize_eq hobj
  rcases Nat.lt_or_eq_of_le hle with hlt | heq
  · obtain ⟨hg, hend, hst⟩ := h.makeRoom (by omega) hlt (by omega) (hfill hlt)
    exact ⟨hg, fun s hs => h.pend_frame (hst s hs), fun _ => hend⟩
  · -- an entry as large as the log needs no filler, and has room only in an empty log
    have hw : ¬ nvlogWraps L (nvlogEntrySize objSize) := by
      rw [nvlogWraps, nvlogIndex, nvlogIndex, heq, Nat.add_mod_right]
      exact Nat.lt_irrefl _
    rw [nvlogMakeRoom, if_neg hw, nvlogFiller, if_neg hw, List.append_nil]
    refine ⟨h, nofun, fun hcap => ?_⟩
    have hht := h.walk.le
    have h0 := hwhole heq (by simp only at hcap; omega)
    rw [nvlogIndex] at h0
    simp only
    omega

theorem Nvlog.apply_apply (L : Nvlog) (r : Effect) (ss : List Store) (t : ℕ) :
    (L.apply r).apply ⟨ss, t⟩ = L.apply ⟨r.stores ++ ss, t⟩ := by
  simp only [Nvlog.apply, put_append]

/-- `nvlog_enq`, called as `EnqOk` says, appends the entry that it returns and stores to no
byte of the entries before it. -/
theorem Good.enq (h : Good L items pend) {objSize : ℕ} (hok : EnqOk L objSize) :
    Good (L.apply (nvlogEnq L objSize).1) (items ++ nvlogAdded L objSize) (pend ++
      ((nvlogEnq L objSize).2.map fun p =>
        (⟨p, objSize, entryHdr 0 (nvlogEntrySize objSize)⟩ : Entry)).toList) ∧
      ∀ s ∈ (nvlogEnq L objSize).1.stores, ∀ e ∈ pend,
        ¬ (e.ptr ≤ s.addr ∧ s.addr < e.ptr + nvlogEntrySize e.objSize) := by
  have hobj := hok.1
  have he := nvlogEntrySize_eq hobj
  by_cases hle : nvlogEntrySize objSize > L.logSize
  · simp only [nvlogEnq, nvlogAdded, if_pos hle, Option.map_none, Option.toList_none,
      List.append_nil]
    exact ⟨h, nofun⟩
  obtain ⟨hg, hst, hend⟩ := h.prepare hok (Nat.le_of_not_gt hle)
  have hover := h.over_iff (e := nvlogEntrySize objSize) (by omega)
  by_cases hcap : ulongSub ((nvlogMakeRoom L (nvlogEntrySize objSize)).tailCnt +
      nvlogEntrySize objSize) L.headCnt > L.logSize
  · simp only [nvlogEnq, nvlogAdded, if_neg hle, if_pos hcap, Option.map_none,
      Option.toList_none, List.append_nil]
    exact ⟨hg, hst⟩
  · simp only [nvlogEnq, nvlogAdded, if_neg hle, if_neg hcap, Option.map_some,
      Option.toList_some]
    have hroom : (nvlogMakeRoom L (nvlogEntrySize objSize)).tailCnt +
        nvlogEntrySize objSize ≤ L.headCnt + L.logSize := Nat.le_of_not_lt (hover.not.mp hcap)
    have hres := hg.reserve hok.1 (hend hroom) hroom
    rw [Nvlog.apply_apply, List.append_assoc] at hres
    refine ⟨hres, fun s hs => ?_⟩
    rcases List.mem_append.mp hs with hs | hs
    · exact hst s hs
    · -- the header goes to the line at the tail of the log that was made room in
      have hn := dvd_of_pow h.pow (by omega) (Nat.le_of_not_gt hle)
      have hlt : (L.apply (nvlogMakeRoom L (nvlogEntrySize objSize))).tailCnt <
          L.headCnt + L.logSize := by
        simp only [Nvlog.apply]
        omega
      refine hg.pend_frame fun p hp i hi heq => ?_
      refine hg.tail_apart hn (show 0 < L.logSize by omega) (.inl hlt) hp hi ?_
      have hs := mem_entryHdr hs
      simp only [nvlogIndex, ← heq] at hs
      simp only [Nvlog.apply] at hs ⊢
      omega

/-! ### The head -/

/-- Behind the first item the log is as before. -/
theorem Good.tail_of_cons (h : Good L (q :: items) pend) {pend' : List Entry}
    (hp : List.Forall₂ (EntryOk L.logSize L.buffer) pend' (entries items)) :
    Good (L.withHead (L.headCnt + q.2.size)) items pend' := by
  have hq := h.mem List.mem_cons_self
  obtain ⟨-, -, -, -, hrest⟩ := h.walk
  have hsize := (h.item q List.mem_cons_self).size
  have hlt : ∀ p ∈ items, p.1 ≤ L.headCnt + L.logSize := by
    intro p hp
    have hi := h.item p (List.mem_cons_of_mem _ hp)
    cases hb : p.2.bogus with
    | true => exact (hi.bogus hb).2.2
    | false =>
      have := hi.entry hb
      omega
  exact {
    pow := h.pow
    head := (Nat.dvd_add_right h.head).mpr hsize
    tail := h.tail
    walk := hrest
    item := by
      intro p hp
      have hi := h.item p (List.mem_cons_of_mem _ hp)
      refine ⟨hi.cnt, hi.size, fun hb => ?_, fun hb => ?_⟩
      · obtain ⟨h1, h2, h3⟩ := hi.bogus hb
        exact ⟨h1, h2, by simp only [Nvlog.withHead]; omega⟩
      · have := hi.entry hb
        simp only [Nvlog.withHead]
        omega
    full := by
      intro p hp
      have := hlt p hp
      exact .inl (by simp only [Nvlog.withHead]; omega)
    cap := by
      refine h.cap.imp_left fun hc => ?_
      simp only [Nvlog.withHead]
      omega
    pend := hp }

/-- A filler at the head is skipped. -/
theorem Good.skip (h : Good L (q :: items) pend) (hb : q.2.bogus = true) :
    Good (L.withHead (L.headCnt + q.2.size)) items pend := by
  refine h.tail_of_cons ?_
  have hp := h.pend
  rw [entries, List.filter_cons_of_neg (by simp [hb])] at hp
  exact hp

/-- After a filler there is an entry. -/
theorem Good.entry_of_skip (h : Good L (q :: p :: items) pend) (hb : q.2.bogus = true) :
    p.2.bogus = false := by
  obtain ⟨hx, -, -, -, hy, -⟩ := h.walk
  cases hp : p.2.bogus with
  | false => rfl
  | true =>
    have h1 := (h.item q (by simp)).bogus hb
    have h2 := (h.item p (by simp)).bogus hp
    rw [hy] at h2
    rw [hx] at h1
    exact absurd h1.2.1 h2.1

/-- The entry at the head is the first pending one; without it the log is good. -/
theorem Good.pop (h : Good L (q :: items) pend) (hb : q.2.bogus = false) :
    ∃ e pend', pend = e :: pend' ∧ EntryOk L.logSize L.buffer e q ∧
      Good (L.withHead (L.headCnt + q.2.size)) items pend' := by
  have hp := h.pend
  rw [entries, List.filter_cons_of_pos (by simp [hb])] at hp
  obtain ⟨e, pend', he, hrest, rfl⟩ := List.forall₂_cons_right_iff.mp hp
  exact ⟨e, pend', rfl, he, h.tail_of_cons hrest⟩

/-- What the code reads at the head. -/
theorem Good.head_eq (h : Good L (q :: items) pend) :
    L.headCnt ≠ L.tailCnt ∧ q.1 = L.headCnt ∧
      sizeAt L.buffer (nvlogIndex L L.headCnt) = q.2.size ∧
      (typeAt L.buffer (nvlogIndex L L.headCnt) = typeBogus ↔ q.2.bogus = true) := by
  have hm := h.mem List.mem_cons_self
  have hx := h.walk.1
  have hat : hdrAt L.buffer (nvlogIndex L L.headCnt) = q.2 := Option.some_inj.mp h.walk.2.1
  rw [← hat]
  exact ⟨by omega, hx, rfl, decide_eq_true_iff.symm⟩

/-- `nvlog_peek_head` skips a filler and returns the address of the first pending entry. -/
theorem Good.peek (h : Good L items pend) :
    (∃ c items', items' <:+ items ∧ (nvlogPeekHead L).1 = L.withHead c ∧
      Good (L.withHead c) items' pend) ∧
      (nvlogPeekHead L).2 = pend.head?.map Entry.ptr := by
  rw [nvlogPeekHead]
  cases items with
  | nil =>
    have heq : L.headCnt = L.tailCnt := h.walk
    rw [if_pos heq]
    obtain rfl := List.forall₂_nil_right_iff.mp h.pend
    exact ⟨⟨L.headCnt, [], List.suffix_refl _, rfl, h⟩, rfl⟩
  | cons q items =>
    obtain ⟨hne, hx, hsize, htype⟩ := h.head_eq
    rw [if_neg hne]
    simp only [htype, hsize]
    cases hb : q.2.bogus with
    | false =>
      obtain ⟨e, pend', rfl, he, -⟩ := h.pop hb
      refine ⟨⟨L.headCnt, q :: items, List.suffix_refl _, rfl, h⟩, ?_⟩
      simp [he.ptr, hx, nvlogIndex]
    | true =>
      have hs := h.skip hb
      cases items with
      | nil =>
        have heq : (L.withHead (L.headCnt + q.2.size)).headCnt =
          (L.withHead (L.headCnt + q.2.size)).tailCnt := hs.walk
        obtain rfl := List.forall₂_nil_right_iff.mp hs.pend
        simp only [if_true, if_pos heq]
        exact ⟨⟨_, [], List.suffix_cons _ _, rfl, hs⟩, rfl⟩
      | cons p items =>
        obtain ⟨hne, hx', -, -⟩ := hs.head_eq
        obtain ⟨e, pend', rfl, he, -⟩ := hs.pop (h.entry_of_skip hb)
        simp only [if_true, if_neg hne]
        exact ⟨⟨_, p :: items, List.suffix_cons _ _, rfl, hs⟩, by simp [he.ptr, hx', nvlogIndex, Nvlog.withHead]⟩

/-- `nvlog_deq` returns the address of the first pending entry and takes it out. -/
theorem Good.deq (h : Good L items pend) :
    (∃ c items', items' <:+ items ∧ (nvlogDeq L).1 = L.withHead c ∧
      Good (L.withHead c) items' pend.tail) ∧
      (nvlogDeq L).2 = pend.head?.map Entry.ptr := by
  rw [nvlogDeq]
  cases items with
  | nil =>
    have heq : L.headCnt = L.tailCnt := h.walk
    rw [if_pos heq]
    obtain rfl := List.forall₂_nil_right_iff.mp h.pend
    exact ⟨⟨L.headCnt, [], List.suffix_refl _, rfl, h⟩, rfl⟩
  | cons q items =>
    obtain ⟨hne, hx, hsize, htype⟩ := h.head_eq
    rw [if_neg hne]
    simp only [htype, hsize]
    cases hb : q.2.bogus with
    | false =>
      obtain ⟨e, pend', rfl, he, hg⟩ := h.pop hb
      refine ⟨⟨_, items, List.suffix_cons _ _, rfl, hg⟩, ?_⟩
      simp [he.ptr, hx, nvlogIndex]
    | true =>
      have hs := h.skip hb
      cases items with
      | nil =>
        have heq : (L.withHead (L.headCnt + q.2.size)).headCnt =
          (L.withHead (L.headCnt + q.2.size)).tailCnt := hs.walk
        obtain rfl := List.forall₂_nil_right_iff.mp hs.pend
        simp only [if_true, if_pos heq]
        exact ⟨⟨_, [], List.suffix_cons _ _, rfl, hs⟩, rfl⟩
      | cons p items =>
        obtain ⟨hne, hx', hsize', -⟩ := hs.head_eq
        obtain ⟨e, pend', rfl, he, hg⟩ := hs.pop (h.entry_of_skip hb)
        simp only [if_true, if_neg hne, hsize']
        exact ⟨⟨_, items, (List.suffix_cons _ _).trans (List.suffix_cons _ _), rfl, hg⟩, by
          simp [he.ptr, hx', nvlogIndex, Nvlog.withHead]⟩

/-! ### The owner's stores -/

/-- The headers that the log meets elsewhere are on no line of an entry. -/
theorem Good.apart (h : Good L items pend) (hp : p ∈ items) (hq : q ∈ entries items)
    (hpq : p.1 + p.2.size ≤ q.1 ∨ q.1 + q.2.size ≤ p.1) {i j : ℕ} (hi : i < 64)
    (hj : j < q.2.size) : p.1 % L.logSize + i ≠ q.1 % L.logSize + j := by
  obtain ⟨h1, h2, h3, -, h5, hn⟩ := h.mem hp
  obtain ⟨g1, -, -, -, g5, -⟩ := h.mem (mem_entries.mp hq).1
  have hlast := (h.item q (mem_entries.mp hq).1).entry (mem_entries.mp hq).2
  rw [← Ring.index_add (k := i) (by omega), ← Ring.index_add (k := j) (by omega)]
  intro heq
  rcases h.full p hp with hlt | ⟨r, hr, hb⟩
  · have halign := (h.item p hp).cnt
    have hhead := h.head
    have := Ring.index_inj (h := L.headCnt) (by omega) (by omega) (by omega) (by omega) heq
    omega
  · -- a filler one ring length after the head has the header of the filler at the head
    have hbehind := h.behind_bogus hr hb hq
    rcases Nat.lt_or_ge p.1 (L.headCnt + L.logSize) with hlt | hge
    · have halign := (h.item p hp).cnt
      have hhead := h.head
      have := Ring.index_inj (h := L.headCnt) (by omega) (by omega) (by omega) (by omega) heq
      omega
    · have hpb : p.1 = L.headCnt + L.logSize := by
        cases hpb : p.2.bogus with
        | true =>
          have := ((h.item p hp).bogus hpb).2.2
          omega
        | false =>
          have := (h.item p hp).entry hpb
          omega
      rw [hpb, Nat.add_right_comm, Nat.add_mod_right] at heq
      have := Ring.index_inj (h := L.headCnt) (by omega) (by omega) (by omega) (by omega) heq
      omega

/-- The bytes of two entries are different. -/
theorem Good.entries_apart (h : Good L items pend) (hp : p ∈ entries items)
    (hq : q ∈ entries items) (hpq : p.1 + p.2.size ≤ q.1 ∨ q.1 + q.2.size ≤ p.1) {i j : ℕ}
    (hi : i < p.2.size) (hj : j < q.2.size) :
    p.1 % L.logSize + i ≠ q.1 % L.logSize + j := by
  obtain ⟨h1, -, -, -, h5, -⟩ := h.mem (mem_entries.mp hp).1
  obtain ⟨g1, -, -, -, g5, -⟩ := h.mem (mem_entries.mp hq).1
  have hlast := (h.item q (mem_entries.mp hq).1).entry (mem_entries.mp hq).2
  have hlast' := (h.item p (mem_entries.mp hp).1).entry (mem_entries.mp hp).2
  rw [← Ring.index_add (k := i) (by omega), ← Ring.index_add (k := j) (by omega)]
  intro heq
  have := Ring.index_inj (h := L.headCnt) (by omega) (by omega) (by omega) (by omega) heq
  omega

/-- Two items do not overlap. -/
theorem Good.ordered (h : Good L items pend) (hp : p ∈ items) (hq : q ∈ items)
    (hpq : p ≠ q) : p.1 + p.2.size ≤ q.1 ∨ q.1 + q.2.size ≤ p.1 := by
  have hpw : items.Pairwise fun p q => p.1 + p.2.size ≤ q.1 ∨ q.1 + q.2.size ≤ p.1 :=
    h.walk.pairwise.imp .inl
  have : Std.Symm fun p q : ℕ × Hdr =>
      p.1 + p.2.size ≤ q.1 ∨ q.1 + q.2.size ≤ p.1 := ⟨fun _ _ => Or.symm⟩
  exact hpw.forall hp hq hpq

theorem Good.pairwise (h : Good L items pend) :
    (entries items).Pairwise fun p q => p.1 + p.2.size ≤ q.1 :=
  h.walk.pairwise.sublist List.filter_sublist

/-- The owner's stores change no header. -/
theorem hdrAt_fill {b : ℕ → UInt8} {a objSize off w v : ℕ} (hm : mayFill objSize off w v)
    (hb : typeAt b a ≠ typeBogus) : hdrAt (put b (word (a + off) w v)) a = hdrAt b a := by
  rcases hm with h1 | ⟨h1, -⟩ | ⟨rfl, rfl, hv, hv'⟩
  · refine hdrAt_put fun s hs => ?_
    have := mem_word hs
    omega
  · refine hdrAt_put fun s hs => ?_
    have := mem_word hs
    omega
  · have hsize : sizeAt (put b (word (a + 12) 2 v)) a = sizeAt b a := by
      refine load_put fun s hs => ?_
      have := mem_word hs
      omega
    have htype : typeAt (put b (word (a + 12) 2 v)) a = v := load_put_word (by omega)
    rw [hdrAt, hsize, htype, hdrAt, decide_eq_false hv', decide_eq_false hb]

/-- The owner's stores to a pending entry change that entry only. -/
theorem Good.fill (h : Good L items pend) {k off w v : ℕ} {e : Entry} (hk : pend[k]? = some e)
    (hm : mayFill e.objSize off w v) :
    Good (L.apply ⟨word (e.ptr + off) w v, L.tailCnt⟩) items
      (pend.set k { e with stores := e.stores ++ word off w v }) := by
  obtain ⟨hlt, rfl⟩ := List.getElem?_eq_some_iff.mp hk
  have hlen := h.pend.length_eq
  have hkq : k < (entries items).length := by omega
  have heq : EntryOk L.logSize L.buffer pend[k] (entries items)[k] := h.pend.get hlt hkq
  have hq : (entries items)[k] ∈ entries items := List.getElem_mem hkq
  generalize hqk : (entries items)[k] = q at heq hq
  obtain ⟨hqi, hqb⟩ := mem_entries.mp hq
  obtain ⟨-, -, -, hqh, -, -⟩ := h.mem hqi
  have hin : ∀ s ∈ word (pend[k].ptr + off) w v, q.1 % L.logSize ≤ s.addr ∧
      s.addr < q.1 % L.logSize + q.2.size := by
    intro s hs
    have h1 := mem_word hs
    have h2 := heq.fits
    have h3 := heq.size
    rw [heq.ptr] at h1
    simp only [mayFill, sizeofNvlogEntryHdr] at hm h2
    omega
  refine ⟨h.pow, h.head, h.tail, h.walk.frame fun p hp => congrArg some ?_, h.item, h.full,
    h.cap, ?_⟩
  · by_cases hpq : p = q
    · subst hpq
      show hdrAt (put L.buffer (word (pend[k].ptr + off) w v)) _ = _
      rw [heq.ptr]
      refine hdrAt_fill hm fun ht => ?_
      rw [← hqh, hdrAt, ht] at hqb
      simp at hqb
    · have hor := h.ordered hp hqi hpq
      refine hdrAt_put fun s hs => ?_
      by_contra hc
      have := hin s hs
      refine h.apart hp hq hor (i := s.addr - p.1 % L.logSize) (j := s.addr - q.1 % L.logSize)
        ?_ ?_ ?_ <;> omega
  · refine forall₂_set h.pend (fun p hp => ?_) fun j e p hj hp he => ?_
    · rw [List.getElem?_eq_getElem hkq, hqk, Option.some_inj] at hp
      subst hp
      refine ⟨heq.ptr, heq.size, heq.fits, fun s hs => ?_, ?_⟩
      · rcases List.mem_append.mp hs with hs | hs
        · exact heq.stores s hs
        · have h1 := mem_word hs
          have h2 := heq.fits
          have h3 := heq.size
          simp only [mayFill, sizeofNvlogEntryHdr] at hm h2
          omega
      · simp only [Nvlog.apply, ← shift_word, put_shift]
        exact heq.holds.put
    · obtain ⟨hjl, rfl⟩ := List.getElem?_eq_some_iff.mp hp
      have hor : (entries items)[j].1 + (entries items)[j].2.size ≤ q.1 ∨
          q.1 + q.2.size ≤ (entries items)[j].1 := by
        have hpw := List.pairwise_iff_getElem.mp h.pairwise
        rcases Nat.lt_or_gt_of_ne hj with hjk | hjk
        · exact .inl (hqk ▸ hpw j k hjl hkq hjk)
        · exact .inr (hqk ▸ hpw k j hkq hjl hjk)
      refine ⟨he.ptr, he.size, he.fits, he.stores, he.holds.congr fun s hs => ?_⟩
      refine put_of_notMem fun t ht haddr => ?_
      have h1 := hin t ht
      have h2 := he.stores s hs
      rw [he.ptr] at haddr
      exact h.entries_apart (List.getElem_mem hjl) hq hor h2
        (j := t.addr - q.1 % L.logSize) (by omega) (by omega)

/-! ### Runs -/

variable {s s' : St}

/-- What holds in every state of a run. -/
structure Inv (s : St) : Prop where
  good : ∃ items, Good s.log items s.pending
  order : List.Forall₂ Returned s.dequeued (s.written.take s.dequeued.length)

theorem Inv.length_le (h : Inv s) : s.dequeued.length ≤ s.written.length := by
  have := h.order.length_eq
  rw [List.length_take] at this
  omega

theorem Inv.init {k : ℕ} (h : IsInit k s) : Inv s := by
  obtain ⟨h1, h2, h3, hk, h4, h5⟩ := h
  constructor
  · refine ⟨[], ⟨k, hk, h3⟩, ?_, ?_, ?_, nofun, nofun, ?_, ?_⟩
    · rw [h1]
      exact Nat.dvd_zero _
    · rw [h2]
      exact Nat.dvd_zero _
    · exact h1.trans h2.symm
    · exact .inl (by omega)
    · rw [St.pending, h4, List.drop_nil]
      exact .nil
  · rw [h5]
    exact .nil

theorem Inv.enq (h : Inv s) (ok : EnqOk s.log n) (hs : step s (.enq n) = some s') : Inv s' := by
  obtain ⟨items, hg⟩ := h.good
  obtain ⟨hg', -⟩ := hg.enq ok
  have hle := h.length_le
  simp only [step, Option.some_inj] at hs
  subst hs
  constructor
  · refine ⟨items ++ nvlogAdded s.log n, ?_⟩
    rw [St.pending, List.drop_append_of_le_length hle]
    exact hg'
  · simp only [List.take_append_of_le_length hle]
    exact h.order

theorem Inv.peek (h : Inv s) (hs : step s .peek = some s') : Inv s' := by
  obtain ⟨items, hg⟩ := h.good
  obtain ⟨⟨c, items', -, heq, hg'⟩, -⟩ := hg.peek
  simp only [step, Option.some_inj, heq] at hs
  subst hs
  exact ⟨⟨items', hg'⟩, h.order⟩

theorem Inv.deq (h : Inv s) (hs : step s .deq = some s') : Inv s' := by
  obtain ⟨items, hg⟩ := h.good
  obtain ⟨⟨c, items', -, heq, hg'⟩, hret⟩ := hg.deq
  simp only [step, Option.some_inj, hret, heq] at hs
  subst hs
  cases hp : s.pending with
  | nil =>
    rw [hp] at hg'
    simp only [List.head?_nil, Option.map_none, Option.toList_none, List.append_nil]
    exact ⟨⟨items', by rw [St.pending] at hp ⊢; rw [hp]; exact hg'⟩, h.order⟩
  | cons e rest =>
    -- the entry was in the log with the bytes stored to it
    obtain ⟨q, -, hq⟩ := hg.item_of_pend (e := e) (by rw [hp]; exact List.mem_cons_self)
    rw [hp] at hg'
    rw [St.pending] at hp
    have htake : s.written.take (s.dequeued.length + 1) =
        s.written.take s.dequeued.length ++ [e] := by
      rw [List.take_add_one, ← List.head?_drop, hp]
      rfl
    have hdrop : s.written.drop (s.dequeued.length + 1) = rest := by
      rw [← List.tail_drop, hp, List.tail_cons]
    simp only [List.head?_cons, Option.map_some, Option.toList_some]
    constructor
    · refine ⟨items', ?_⟩
      rw [St.pending]
      simp only [List.length_append, List.length_singleton, hdrop]
      exact hg'
    · simp only [List.length_append, List.length_singleton, htake]
      exact List.rel_append h.order (.cons ⟨rfl, hq.holds⟩ .nil)

theorem Inv.fill (h : Inv s) {k off w v : ℕ} (hs : step s (.fill k off w v) = some s') :
    Inv s' := by
  obtain ⟨items, hg⟩ := h.good
  simp only [step, Option.bind_eq_bind, Option.bind_eq_some_iff,
    Option.ite_none_right_eq_some, Option.some_inj] at hs
  obtain ⟨e, he, ⟨hk, hm⟩, rfl⟩ := hs
  have hpend : s.pending[k - s.dequeued.length]? = some e := by
    rw [St.pending, List.getElem?_drop, Nat.add_sub_cancel' hk]
    exact he
  constructor
  · refine ⟨items, ?_⟩
    rw [St.pending, List.drop_set, if_neg (by simp only; omega)]
    exact hg.fill hpend hm
  · simp only [List.take_set_of_le hk]
    exact h.order

theorem Inv.step {a : Action} (h : Inv s) (ok : StepOk s a)
    (hs : ByteLog.step s a = some s') : Inv s' := by
  cases a with
  | enq n => exact h.enq ok hs
  | peek => exact h.peek hs
  | deq => exact h.deq hs
  | fill k off w v => exact h.fill hs

/-- A good log is a queue. -/
theorem Inv.fifo (h : Inv s) : Fifo EnqOk s := by
  obtain ⟨items, hg⟩ := h.good
  have hnone : ∀ {o : Option ℕ}, o = s.pending.head?.map Entry.ptr → o = none →
      s.pending = [] := by
    rintro o ho rfl
    simpa using ho.symm
  refine ⟨h.order, hnone hg.deq.2, hnone hg.peek.2, fun e he => ?_, fun n ok => (hg.enq ok).2⟩
  obtain ⟨p, hp, hep⟩ := hg.item_of_pend he
  have hm := hg.mem (mem_entries.mp hp).1
  rw [hep.ptr, ← hep.size]
  exact ⟨hm.2.2.2.2.1, hep.size ▸ hep.fits⟩

/-- In every run in which `nvlog_enq` is called as `EnqOk` says, the log is a queue. -/
theorem fifo_of_reach {k : ℕ} (h : Run.Reach (IsInit k) step StepOk s) : Fifo EnqOk s := by
  have hinv : Inv s := by
    refine h.invariant (fun s hs => Inv.init hs) fun s a s' hi ok hs => ?_
    exact hi.step ok hs
  exact hinv.fifo

/-- A log of 256 bytes before its first entry. -/
def fresh256 : St := ⟨⟨0, 0, 256, fun _ => 0⟩, [], []⟩

/-- Fill the log, make its last line a filler, and fill it again up to the head. -/
def fillUp : List Action := [.enq 48, .enq 48, .enq 48, .deq, .enq 48]

/-- With one entry more dequeued there is room for the filler, though not for the entry
behind it. -/
theorem fifo_of_reach_around :
    ∃ s, Run.Reach (IsInit 8) step StepOk s ∧ s.log.tailCnt = 512 ∧ s.pending.length = 1 ∧
      Fifo EnqOk s := by
  have hrun : (Run.exec step StepOk fresh256 (fillUp ++ [.deq, .enq 176, .fill 3 16 4 7,
      .peek, .deq])).map
      (fun s => decide (s.log.tailCnt = 512 ∧ s.pending.length = 1)) = some true := by
    decide +kernel
  obtain ⟨s, hr, ht, hp⟩ : ∃ s, Run.Reach (IsInit 8) step StepOk s ∧ _ :=
    Run.Reach.exists_of_exec (.init ⟨rfl, rfl, rfl, by decide, rfl, rfl⟩) hrun
  exact ⟨s, hr, ht, hp, fifo_of_reach hr⟩

theorem map_ptr_of_returned {ds : List Dequeued} {es : List Entry}
    (h : List.Forall₂ Returned ds es) : ds.map Dequeued.ptr = es.map Entry.ptr := by
  induction h with
  | nil => rfl
  | cons hr _ ih => rw [List.map_cons, List.map_cons, hr.1, ih]

/-- A filler goes over the oldest entry of a full log: `nvlog_enq` fails, and `nvlog_deq`
then loses the two oldest entries. -/
theorem enq_overwrites_head :
    ¬ ∀ k s, Run.Reach (IsInit k) step Run.any s → Fifo (fun _ _ => True) s := by
  intro h
  have hrun : (Run.exec step Run.any fresh256 (fillUp ++ [.enq 176, .deq])).map
      (fun s => decide (s.written.map Entry.ptr = [0, 64, 128, 0] ∧
        s.dequeued.map Dequeued.ptr = [0, 0])) = some true := by
    decide +kernel
  obtain ⟨s, hs, hd⟩ := Option.map_eq_some_iff.mp hrun
  obtain ⟨hw, hq⟩ := of_decide_eq_true hd
  have horder := (h 8 s (.of_exec (.init ⟨rfl, rfl, rfl, by decide, rfl, rfl⟩) hs)).order
  have hptr := map_ptr_of_returned horder
  have hlen : s.dequeued.length = 2 := by
    rw [← List.length_map (f := Dequeued.ptr), hq]
    rfl
  rw [List.map_take, hlen, hw, hq] at hptr
  simp at hptr

/-! ### A failed enqueue -/

/-- A call of `nvlog_enq` that returns `NULL` changes neither the counters nor a byte. -/
def FailsUnchanged (L : Nvlog) (objSize : ℕ) : Prop :=
  (nvlogEnq L objSize).2 = none →
    (L.apply (nvlogEnq L objSize).1).headCnt = L.headCnt ∧
      (L.apply (nvlogEnq L objSize).1).tailCnt = L.tailCnt ∧
      ∀ i, (L.apply (nvlogEnq L objSize).1).buffer i = L.buffer i

/-- The size of the log does not change. -/
theorem logSize_step {a : Action} (hs : step s a = some s') : s'.log.logSize = s.log.logSize := by
  match a with
  | .enq n =>
    rw [step, Option.some_inj] at hs
    exact hs ▸ rfl
  | .peek =>
    rw [step, Option.some_inj] at hs
    subst hs
    simp only [nvlogPeekHead]
    repeat' split
    all_goals rfl
  | .deq =>
    rw [step, Option.some_inj] at hs
    subst hs
    simp only [nvlogDeq]
    repeat' split
    all_goals rfl
  | .fill k off w v =>
    simp only [step, Option.bind_eq_bind, Option.bind_eq_some_iff,
      Option.ite_none_right_eq_some, Option.some_inj] at hs
    obtain ⟨e, -, -, rfl⟩ := hs
    rfl

theorem logSize_of_reach {k : ℕ} (h : Run.Reach (IsInit k) step Run.any s) :
    s.log.logSize = 2 ^ k :=
  h.invariant (fun _ hs => hs.2.2.1) fun _ _ _ hi _ hs => (logSize_step hs).trans hi

/-- A call with a filler behind which the entry does not fit. -/
def Overflows (L : Nvlog) (objSize : ℕ) : Prop :=
  nvlogEntrySize objSize ≤ L.logSize ∧ nvlogWraps L (nvlogEntrySize objSize) ∧
    L.logSize < ulongSub (L.tailCnt + nvlogBogusSize L + nvlogEntrySize objSize) L.headCnt

theorem nvlogEnq_of_overflows {n : ℕ} (h : Overflows L n) :
    nvlogEnq L n = (⟨bogusHdr (nvlogIndex L L.tailCnt) (nvlogBogusSize L),
      L.tailCnt + nvlogBogusSize L⟩, none) := by
  obtain ⟨hle, hw, hfull⟩ := h
  simp only [nvlogEnq, if_neg hle.not_gt, nvlogMakeRoom, if_pos hw]
  rw [if_pos hfull]

theorem nvlogEnq_none_cases {n : ℕ} (h : (nvlogEnq L n).2 = none) :
    (nvlogEnq L n).1 = ⟨[], L.tailCnt⟩ ∨ Overflows L n := by
  by_cases hbig : nvlogEntrySize n > L.logSize
  · exact .inl (by rw [nvlogEnq, if_pos hbig])
  by_cases hw : nvlogWraps L (nvlogEntrySize n)
  · simp only [nvlogEnq, if_neg hbig, nvlogMakeRoom, if_pos hw] at h
    split at h
    · rename_i hfull
      exact .inr ⟨not_lt.mp hbig, hw, hfull⟩
    · contradiction
  · left
    simp only [nvlogEnq, if_neg hbig, nvlogMakeRoom, if_neg hw] at h ⊢
    split at h
    · rename_i hfull
      rw [if_pos hfull]
    · contradiction

/-- In every state of every run, and for every size, a failing call of `nvlog_enq` leaves
the log as it was if and only if the entry is larger than the log, or it needs no filler,
or it fits behind the filler.  The sizes of a log are the powers of two that
`is_power_of_2` sees, those of 32 bits. -/
theorem failsUnchanged_iff {k : ℕ} (hk : k < 32) (h : Run.Reach (IsInit k) step Run.any s)
    (objSize : ℕ) :
    FailsUnchanged s.log objSize ↔
      (nvlogEntrySize objSize ≤ s.log.logSize → nvlogWraps s.log (nvlogEntrySize objSize) →
        ulongSub (s.log.tailCnt + (s.log.logSize - nvlogIndex s.log s.log.tailCnt) +
          nvlogEntrySize objSize) s.log.headCnt ≤ s.log.logSize) := by
  have hsize : s.log.logSize < 2 ^ 32 := by
    rw [logSize_of_reach h]
    exact Nat.pow_lt_pow_right (by decide) hk
  have hidx : nvlogIndex s.log s.log.tailCnt < s.log.logSize :=
    Nat.mod_lt _ (by rw [logSize_of_reach h]; exact Nat.two_pow_pos k)
  have hbogus : nvlogBogusSize s.log = s.log.logSize - nvlogIndex s.log s.log.tailCnt :=
    Nat.mod_eq_of_lt ((Nat.sub_le _ _).trans_lt hsize)
  constructor
  · -- a filler that is left behind has moved the tail
    intro hun hle hw
    by_contra hfull
    have heq := nvlogEnq_of_overflows ⟨hle, hw, hbogus ▸ not_le.mp hfull⟩
    obtain ⟨-, htail, -⟩ := hun (by rw [heq])
    rw [heq] at htail
    simp only [Nvlog.apply] at htail
    omega
  · intro hfits hnull
    rcases nvlogEnq_none_cases hnull with heq | ⟨hle, hw, hfull⟩
    · rw [heq, Nvlog.apply, put_nil]
      exact ⟨rfl, rfl, fun _ => rfl⟩
    · exact absurd (hfits hle hw) (hbogus ▸ hfull).not_ge

/-- A log with room for the filler and the entry behind it. -/
theorem failsUnchanged_iff_around :
    ∃ s, Run.Reach (IsInit 8) step Run.any s ∧ nvlogWraps s.log (nvlogEntrySize 48) ∧
      (FailsUnchanged s.log 48 ↔
        (nvlogEntrySize 48 ≤ s.log.logSize → nvlogWraps s.log (nvlogEntrySize 48) →
          ulongSub (s.log.tailCnt + (s.log.logSize - nvlogIndex s.log s.log.tailCnt) +
            nvlogEntrySize 48) s.log.headCnt ≤ s.log.logSize)) := by
  have hrun : (Run.exec step Run.any fresh256 [.enq 48, .enq 48, .enq 48, .deq]).map
      (fun s => decide (nvlogWraps s.log (nvlogEntrySize 48))) = some true := by
    decide +kernel
  obtain ⟨s, hr, hd⟩ : ∃ s, Run.Reach (IsInit 8) step Run.any s ∧ _ :=
    Run.Reach.exists_of_exec (.init ⟨rfl, rfl, rfl, by decide, rfl, rfl⟩) hrun
  exact ⟨s, hr, hd, failsUnchanged_iff (by decide) hr 48⟩

/-- The call that fails in a full log of 256 bytes moves the tail from 320 to 512 and
writes the filler over the header of the oldest entry, at address 64. -/
theorem failed_enq_changes_log :
    ¬ ∀ k s, k < 32 → Run.Reach (IsInit k) step Run.any s →
      ∀ objSize, objSize < 2 ^ 32 → FailsUnchanged s.log objSize := by
  intro h
  have hrun : (Run.exec step Run.any fresh256 fillUp).map
      (fun s => decide ((nvlogEnq s.log 176).2 = none ∧ s.pending.map Entry.ptr = [64, 128, 0] ∧
        s.log.buffer 72 = 64 ∧ (s.log.apply (nvlogEnq s.log 176).1).buffer 72 = 192)) =
      some true := by
    decide +kernel
  obtain ⟨s, hr, hnull, -, hbefore, hafter⟩ : ∃ s, Run.Reach (IsInit 8) step Run.any s ∧ _ :=
    Run.Reach.exists_of_exec (.init ⟨rfl, rfl, rfl, by decide, rfl, rfl⟩) hrun
  obtain ⟨-, -, hbytes⟩ := h 8 s (by decide) hr 176 (by decide) hnull
  have hbyte := hbytes 72
  rw [hbefore, hafter] at hbyte
  contradiction

end TimeStone.ByteLog
