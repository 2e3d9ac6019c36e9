/-
The non-volatile log (`nvlog.c`): a ring of variable-size entries.

An entry never wraps around the end of the ring: when the next entry would,
`nvlogEnq` first appends a bogus filler that ends the ring, and readers skip
it.  The buffer is read only at entry headers, so it is modelled by what each
ring index holds as an entry header: `none` where no header starts.

`Walk L c es d` says that the bytes from counter `c` to counter `d` decode as
the entries `es`.  The main facts are

* `nvlogEnq_spec` — a successful enqueue extends the walk from the head by the
  filler, if any, and the new entry, and keeps every older header;
* `nvlogPeekHead_cons`, `nvlogDeq_walk` — reading at the head of a walk.
-/
import TimeStone.Config
import TimeStone.Lib.Ring

namespace TimeStone

/-- The type field of an entry header. -/
inductive EntryType
  | entry
  | bogus
  deriving DecidableEq

/-- An entry of the log: its header (`ts_nvlog_entry_hdr_t`) and what the caller
of `nvlog_enq` stored behind it, `none` until it did. -/
structure NvlogEntry (α : Type*) where
  wrtClk : ℕ
  size : ℕ
  type : EntryType
  obj : Option α

/-- `ts_nvlog_t` together with the two counters of its `ts_nvlog_store_t`. -/
structure Nvlog (α : Type*) where
  headCnt : ℕ
  tailCnt : ℕ
  prevHeadCnt : ℕ
  logSize : ℕ
  buffer : ℕ → Option (NvlogEntry α)
  storeHeadCnt : ℕ
  storeTailCnt : ℕ

variable {α : Type*}

/-- Move the head counter. -/
def Nvlog.withHead (L : Nvlog α) (c : ℕ) : Nvlog α := { L with headCnt := c }

/-- `nvlog_create` on a fresh store of `size` bytes. -/
def nvlogCreate (size : ℕ) : Nvlog α where
  headCnt := 0
  tailCnt := 0
  prevHeadCnt := 0
  logSize := size
  buffer := fun _ => none
  storeHeadCnt := 0
  storeTailCnt := 0

/-- `nvlog_index`: `cnt & ~mask`, the log size being a power of two. -/
def nvlogIndex (L : Nvlog α) (cnt : ℕ) : ℕ := cnt % L.logSize

/-- The entry header at counter `cnt`; `none` where no header starts. -/
def nvlogAt (L : Nvlog α) (cnt : ℕ) : Option (NvlogEntry α) := L.buffer (nvlogIndex L cnt)

/-- `nvlog_used`. -/
def nvlogUsed (L : Nvlog α) : ℕ := L.tailCnt - L.headCnt

/-- The entry size that `nvlog_enq` computes for an object of `objSize` bytes. -/
def nvlogEntrySize (objSize : ℕ) : ℕ :=
  alignUintToCacheline (uint (objSize + sizeofNvlogEntryHdr))

/-- Does the next entry of `entrySize` bytes run over the end of the ring? -/
def nvlogWraps (L : Nvlog α) (entrySize : ℕ) : Prop :=
  nvlogIndex L (L.tailCnt + entrySize) < nvlogIndex L L.tailCnt

instance (L : Nvlog α) (entrySize : ℕ) : Decidable (nvlogWraps L entrySize) :=
  inferInstanceAs (Decidable (_ < _))

/-- The size of the bogus filler at the tail. -/
def nvlogBogusSize (L : Nvlog α) : ℕ := L.logSize - nvlogIndex L L.tailCnt

/-- Append the bogus filler that ends the ring. -/
def nvlogEnqBogus (L : Nvlog α) : Nvlog α where
  __ := L
  buffer := Function.update L.buffer (nvlogIndex L L.tailCnt)
    (some ⟨0, nvlogBogusSize L, .bogus, none⟩)
  tailCnt := L.tailCnt + nvlogBogusSize L

/-- The first half of `nvlog_enq`: append the filler when an entry of `entrySize`
bytes would run over the end of the ring. -/
def nvlogMakeRoom (L : Nvlog α) (entrySize : ℕ) : Nvlog α :=
  if nvlogWraps L entrySize then nvlogEnqBogus L else L

/-- The second half of `nvlog_enq`: reserve an entry at the tail. -/
def nvlogReserve (L : Nvlog α) (entrySize : ℕ) : Nvlog α where
  __ := L
  buffer := Function.update L.buffer (nvlogIndex L L.tailCnt)
    (some ⟨maxVersion, entrySize, .entry, none⟩)
  tailCnt := L.tailCnt + entrySize

/-- `nvlog_enq`: reserve an entry and return its counter, or `none` (`NULL`) on
overflow.  As in the source the filler is appended before the capacity is
checked. -/
def nvlogEnq (L : Nvlog α) (objSize : ℕ) : Nvlog α × Option ℕ :=
  let entrySize := nvlogEntrySize objSize
  if entrySize > L.logSize then (L, none)
  else
    let L₁ := nvlogMakeRoom L entrySize
    if (L₁.tailCnt + entrySize) - L₁.headCnt > L₁.logSize then (L₁, none)
    else (nvlogReserve L₁ entrySize, some L₁.tailCnt)

/-- The caller of `nvlog_enq` fills the entry at `cnt`: the write clock of the
header and the bytes behind it, which are no headers any more. -/
def nvlogFill (L : Nvlog α) (cnt wrtClk : ℕ) (obj : α) : Nvlog α where
  __ := L
  buffer := fun i =>
    match nvlogAt L cnt with
    | none => L.buffer i
    | some e =>
      if i = nvlogIndex L cnt then some { e with wrtClk := wrtClk, obj := some obj }
      else if nvlogIndex L cnt < i ∧ i < nvlogIndex L cnt + e.size then none
      else L.buffer i

/-- `nvlog_peek_head`: skip a bogus filler at the head and return the entry
there, `none` (`NULL`) when the log is empty.  The outer `none` is a read of
bytes that are no entry header. -/
def nvlogPeekHead (L : Nvlog α) : Option (Nvlog α × Option (NvlogEntry α)) :=
  if L.headCnt = L.tailCnt then some (L, none)
  else do
    let e ← nvlogAt L L.headCnt
    if e.type = .bogus then
      let L' := L.withHead (L.headCnt + e.size)
      if L'.headCnt = L'.tailCnt then some (L', none)
      else do
        let e' ← nvlogAt L' L'.headCnt
        some (L', some e')
    else some (L, some e)

/-- `nvlog_deq`: like `nvlog_peek_head`, and advance the head over the entry
returned. -/
def nvlogDeq (L : Nvlog α) : Option (Nvlog α × Option (NvlogEntry α)) :=
  if L.headCnt = L.tailCnt then some (L, none)
  else do
    let e ← nvlogAt L L.headCnt
    let L' := L.withHead (L.headCnt + e.size)
    if e.type = .bogus then
      if L'.headCnt = L'.tailCnt then some (L', none)
      else do
        let e' ← nvlogAt L' L'.headCnt
        some (L'.withHead (L'.headCnt + e'.size), some e')
    else some (L', some e)

/-- Dequeue entries from the head as long as `go` says so: the loop that every
reclamation of a non-volatile log runs. -/
def nvlogDrain (go : Nvlog α → NvlogEntry α → Bool) : ℕ → Nvlog α → Option (Nvlog α)
  | 0, _ => none
  | fuel + 1, L => do
    let (L₁, r) ← nvlogPeekHead L
    match r with
    | none => some L₁
    | some e =>
      if go L₁ e then do
        let (L₂, _) ← nvlogDeq L₁
        nvlogDrain go fuel L₂
      else some L₁

/-- `nvlog_enq_persist`: the store's tail becomes the log's tail, unless the two
have the same ring index. -/
def nvlogEnqPersist (L : Nvlog α) : Nvlog α :=
  if nvlogIndex L L.storeTailCnt = nvlogIndex L L.tailCnt then L
  else { L with storeTailCnt := L.tailCnt }

/-- `nvlog_deq_persist`. -/
def nvlogDeqPersist (L : Nvlog α) : Nvlog α := { L with storeHeadCnt := L.headCnt }

/-! ### Decoding the ring -/

/-- The bytes from counter `c` to counter `d` decode as the entries `es`, each
listed with its counter. -/
abbrev Walk (L : Nvlog α) : ℕ → List (ℕ × NvlogEntry α) → ℕ → Prop :=
  Ring.Walk L.logSize NvlogEntry.size L.buffer

/-! ### Enqueueing -/

/-- The bogus filler extends the walk from the head when the ring has room for
it. -/
theorem nvlogEnqBogus_walk {L : Nvlog α} {es : List (ℕ × NvlogEntry α)} {c : ℕ}
    (hw : Walk L c es L.tailCnt) (hpos : 0 < L.logSize)
    (hroom : L.tailCnt + nvlogBogusSize L ≤ c + L.logSize) :
    Walk (nvlogEnqBogus L) c (es ++ [(L.tailCnt, ⟨0, nvlogBogusSize L, .bogus, none⟩)])
      (nvlogEnqBogus L).tailCnt := by
  have hidx : L.tailCnt % L.logSize < L.logSize := Nat.mod_lt _ hpos
  have hb : 0 < nvlogBogusSize L ∧ L.tailCnt % L.logSize + nvlogBogusSize L ≤ L.logSize := by
    rw [nvlogBogusSize, nvlogIndex]
    omega
  refine hw.put (e := ⟨0, nvlogBogusSize L, .bogus, none⟩) hb.1 hroom hb.2 ?_ ?_
  · exact Function.update_self _ _ _
  · intro i hi
    refine Function.update_of_ne (fun heq => hi ?_) _ _
    subst heq
    exact ⟨le_refl _, by simp only [nvlogIndex]; omega⟩

/-- The filler that `nvlog_enq` inserts before an entry of `entrySize` bytes. -/
def nvlogFiller (L : Nvlog α) (entrySize : ℕ) : List (ℕ × NvlogEntry α) :=
  if nvlogWraps L entrySize then [(L.tailCnt, ⟨0, nvlogBogusSize L, .bogus, none⟩)] else []

theorem nvlogMakeRoom_frame (L : Nvlog α) (n : ℕ) :
    (nvlogMakeRoom L n).headCnt = L.headCnt ∧
      (nvlogMakeRoom L n).prevHeadCnt = L.prevHeadCnt ∧
      (nvlogMakeRoom L n).logSize = L.logSize := by
  rw [nvlogMakeRoom]
  split <;> exact ⟨rfl, rfl, rfl⟩

/-- Making room extends the walk by the filler, provided that a filler, if one is
needed, fits the ring. -/
theorem nvlogMakeRoom_walk {L : Nvlog α} {es : List (ℕ × NvlogEntry α)} {n c : ℕ}
    (hw : Walk L c es L.tailCnt) (hpos : 0 < L.logSize)
    (hroom : nvlogWraps L n → L.tailCnt + nvlogBogusSize L ≤ c + L.logSize) :
    Walk (nvlogMakeRoom L n) c (es ++ nvlogFiller L n) (nvlogMakeRoom L n).tailCnt := by
  rw [nvlogMakeRoom, nvlogFiller]
  split
  · rename_i hwr
    exact nvlogEnqBogus_walk hw hpos (hroom hwr)
  · rw [List.append_nil]
    exact hw

/-- After making room, an entry shorter than the ring ends inside it. -/
theorem nvlogMakeRoom_end {L : Nvlog α} {n : ℕ} (hn : 0 < n) (hlt : n < L.logSize) :
    nvlogIndex (nvlogMakeRoom L n) (nvlogMakeRoom L n).tailCnt + n ≤ L.logSize := by
  have hidx : L.tailCnt % L.logSize < L.logSize := Nat.mod_lt _ (by omega)
  rw [nvlogMakeRoom]
  split
  · have h0 : (L.tailCnt + nvlogBogusSize L) % L.logSize = 0 := by
      refine Ring.index_end ?_
      rw [nvlogBogusSize, nvlogIndex]
      omega
    show (L.tailCnt + nvlogBogusSize L) % L.logSize + n ≤ L.logSize
    omega
  · rename_i hwr
    rw [nvlogWraps, nvlogIndex, nvlogIndex, Ring.index_lt_iff hn hlt] at hwr
    rw [nvlogIndex]
    omega

theorem nvlogFill_buffer {L : Nvlog α} {cnt : ℕ} {e : NvlogEntry α}
    (h : nvlogAt L cnt = some e) (w : ℕ) (o : α) (i : ℕ) :
    (nvlogFill L cnt w o).buffer i =
      if i = nvlogIndex L cnt then some { e with wrtClk := w, obj := some o }
      else if nvlogIndex L cnt < i ∧ i < nvlogIndex L cnt + e.size then none
      else L.buffer i := by
  simp only [nvlogFill, h]

/-- An entry reserved at the tail and filled by the caller extends the walk. -/
theorem nvlogReserve_walk {L : Nvlog α} {es : List (ℕ × NvlogEntry α)} {n c : ℕ}
    (hw : Walk L c es L.tailCnt) (hn : 0 < n) (hroom : L.tailCnt + n ≤ c + L.logSize)
    (hend : nvlogIndex L L.tailCnt + n ≤ L.logSize) (w : ℕ) (o : α) :
    Walk (nvlogFill (nvlogReserve L n) L.tailCnt w o) c
      (es ++ [(L.tailCnt, ⟨w, n, .entry, some o⟩)]) (L.tailCnt + n) := by
  have hat : nvlogAt (nvlogReserve L n) L.tailCnt = some ⟨maxVersion, n, .entry, none⟩ :=
    Function.update_self _ _ _
  refine hw.put (e := (⟨w, n, .entry, some o⟩ : NvlogEntry α)) hn hroom hend ?_ ?_
  · rw [nvlogFill_buffer hat]
    exact if_pos rfl
  · intro i hi
    have hne : i ≠ nvlogIndex (nvlogReserve L n) L.tailCnt := by
      rintro rfl
      exact hi ⟨le_refl _, Nat.lt_add_of_pos_right hn⟩
    rw [nvlogFill_buffer hat, if_neg hne, if_neg fun h => hi ⟨h.1.le, h.2⟩]
    exact Function.update_of_ne hne _ _

/-- A failed enqueue has only made room. -/
theorem nvlogEnq_none {L L' : Nvlog α} {objSize : ℕ}
    (hlt : nvlogEntrySize objSize < L.logSize) (h : nvlogEnq L objSize = (L', none)) :
    L' = nvlogMakeRoom L (nvlogEntrySize objSize) := by
  rw [nvlogEnq, if_neg (by omega)] at h
  simp only at h
  split at h
  · exact (Prod.mk.inj h).1.symm
  · exact absurd (Prod.mk.inj h).2 (by simp)

/-- A successful enqueue, once filled by the caller, extends the walk from the
head by the filler and the entry. -/
theorem nvlogEnq_spec {L L' : Nvlog α} {es : List (ℕ × NvlogEntry α)} {objSize cnt w : ℕ}
    {o : α} (hw : Walk L L.headCnt es L.tailCnt) (h0 : 0 < nvlogEntrySize objSize)
    (hlt : nvlogEntrySize objSize < L.logSize)
    (hroom : nvlogWraps L (nvlogEntrySize objSize) →
      L.tailCnt + nvlogBogusSize L ≤ L.headCnt + L.logSize)
    (h : nvlogEnq L objSize = (L', some cnt)) :
    (nvlogFill L' cnt w o).headCnt = L.headCnt ∧
      (nvlogFill L' cnt w o).prevHeadCnt = L.prevHeadCnt ∧
      (nvlogFill L' cnt w o).logSize = L.logSize ∧
      (nvlogFill L' cnt w o).tailCnt ≤ L.headCnt + L.logSize ∧
      Walk (nvlogFill L' cnt w o) L.headCnt
        (es ++ nvlogFiller L (nvlogEntrySize objSize) ++
          [(cnt, ⟨w, nvlogEntrySize objSize, .entry, some o⟩)])
        (nvlogFill L' cnt w o).tailCnt := by
  have hwr := nvlogMakeRoom_walk hw (by omega) hroom
  have hend := nvlogMakeRoom_end (L := L) h0 hlt
  obtain ⟨hh, hp, hs⟩ := nvlogMakeRoom_frame L (nvlogEntrySize objSize)
  rw [nvlogEnq, if_neg (by omega)] at h
  simp only at h
  split at h
  · exact absurd (Prod.mk.inj h).2 (by simp)
  · rename_i hcap
    obtain ⟨rfl, hcnt⟩ := Prod.mk.inj h
    rw [Option.some_inj] at hcnt
    subst hcnt
    have hle := hwr.le
    refine ⟨hh, hp, hs, ?_, ?_⟩
    · show (nvlogMakeRoom L (nvlogEntrySize objSize)).tailCnt + nvlogEntrySize objSize ≤ _
      omega
    · exact nvlogReserve_walk hwr h0 (by omega) (by rw [hs]; exact hend) w o

/-! ### Reading at the head -/

section WithHead

variable (L : Nvlog α) (c c' : ℕ)

@[simp] theorem headCnt_withHead : (L.withHead c).headCnt = c := rfl

@[simp] theorem tailCnt_withHead : (L.withHead c).tailCnt = L.tailCnt := rfl

@[simp] theorem prevHeadCnt_withHead : (L.withHead c).prevHeadCnt = L.prevHeadCnt := rfl

@[simp] theorem logSize_withHead : (L.withHead c).logSize = L.logSize := rfl

@[simp] theorem nvlogAt_withHead (x : ℕ) : nvlogAt (L.withHead c) x = nvlogAt L x := rfl

@[simp] theorem nvlogIndex_withHead (x : ℕ) : nvlogIndex (L.withHead c) x = nvlogIndex L x :=
  rfl

@[simp] theorem withHead_withHead : (L.withHead c).withHead c' = L.withHead c' := rfl

@[simp] theorem withHead_self : L.withHead L.headCnt = L := rfl

end WithHead

@[simp] theorem walk_withHead {L : Nvlog α} {c a d : ℕ} {es : List (ℕ × NvlogEntry α)} :
    Walk (L.withHead c) a es d ↔ Walk L a es d :=
  Iff.rfl

/-- A filler starts inside the ring and ends it. -/
def BogusOk (L : Nvlog α) (p : ℕ × NvlogEntry α) : Prop :=
  p.2.type = .bogus → p.1 % L.logSize ≠ 0 ∧ (p.1 + p.2.size) % L.logSize = 0

/-- The entries from the one that `nvlog_peek_head` returns on. -/
def skipBogus : List (ℕ × NvlogEntry α) → List (ℕ × NvlogEntry α)
  | [] => []
  | p :: es => if p.2.type = .bogus then es else p :: es

theorem mem_of_mem_skipBogus {es : List (ℕ × NvlogEntry α)} {p : ℕ × NvlogEntry α}
    (h : p ∈ skipBogus es) : p ∈ es := by
  cases es with
  | nil => exact h
  | cons q es =>
    rw [skipBogus] at h
    split at h
    · exact List.mem_cons_of_mem _ h
    · exact h

/-- Only fillers are skipped. -/
theorem skipBogus_split (es : List (ℕ × NvlogEntry α)) :
    ∃ pre, es = pre ++ skipBogus es ∧ ∀ p ∈ pre, p.2.type = .bogus := by
  cases es with
  | nil => exact ⟨[], rfl, by simp⟩
  | cons q es =>
    rw [skipBogus]
    split
    · rename_i hq
      exact ⟨[q], rfl, by simpa using hq⟩
    · exact ⟨[], rfl, by simp⟩

theorem skipBogus_length (es : List (ℕ × NvlogEntry α)) :
    (skipBogus es).length ≤ es.length := by
  cases es with
  | nil => exact le_refl _
  | cons q es =>
    rw [skipBogus]
    split <;> simp

/-- Skipping stays in the first part of a log when the second one starts with an
entry. -/
theorem skipBogus_append {xs ys : List (ℕ × NvlogEntry α)}
    (h : ∀ p ∈ ys.head?, p.2.type = .entry) : skipBogus (xs ++ ys) = skipBogus xs ++ ys := by
  cases xs with
  | nil =>
    cases ys with
    | nil => rfl
    | cons q ys => simp [skipBogus, h q rfl]
  | cons q xs =>
    simp only [skipBogus, List.cons_append]
    split <;> rfl

/-- A walk with its leading filler skipped starts where the filler ends. -/
theorem Walk.skipBogus {L : Nvlog α} {es : List (ℕ × NvlogEntry α)} {c d : ℕ}
    (h : Walk L c es d) : ∃ c', c ≤ c' ∧ Walk L c' (skipBogus es) d := by
  cases es with
  | nil => exact ⟨c, le_refl _, h⟩
  | cons q es =>
    rw [TimeStone.skipBogus]
    split
    · obtain ⟨-, -, -, -, hrest⟩ := h
      exact ⟨_, Nat.le_add_right _ _, hrest⟩
    · exact ⟨c, le_refl _, h⟩

/-- After the leading filler comes an entry. -/
theorem type_of_skipBogus {L : Nvlog α} {es es' : List (ℕ × NvlogEntry α)} {c d y : ℕ}
    {e : NvlogEntry α} (hw : Walk L c es d) (hb : ∀ p ∈ es, BogusOk L p)
    (h : TimeStone.skipBogus es = (y, e) :: es') : e.type = .entry := by
  cases es with
  | nil => simp [TimeStone.skipBogus] at h
  | cons q es =>
    rw [TimeStone.skipBogus] at h
    split at h
    · -- the filler `q` ends the ring, so no filler can start after it
      rename_i hq
      subst h
      obtain ⟨hx, -, -, -, hy, -⟩ := hw
      cases het : e.type with
      | entry => rfl
      | bogus =>
        have h1 := hb q (by simp) hq
        have h2 := hb (y, e) (by simp) het
        simp only at hx hy h2
        rw [hx, ← hy] at h1
        exact absurd h1.2 h2.1
    · rename_i hq
      obtain ⟨rfl, -⟩ := List.cons.inj h
      cases het : e.type with
      | entry => rfl
      | bogus => exact absurd het hq

/-- `nvlog_peek_head` on a log that decodes as `es`. -/
theorem nvlogPeekHead_nil {L : Nvlog α} {es : List (ℕ × NvlogEntry α)}
    (hw : Walk L L.headCnt es L.tailCnt) (h : TimeStone.skipBogus es = []) :
    nvlogPeekHead L = some (L.withHead L.tailCnt, none) := by
  cases es with
  | nil =>
    have ht : L.headCnt = L.tailCnt := hw
    rw [nvlogPeekHead, if_pos ht, ← ht, withHead_self]
  | cons q es =>
    rw [TimeStone.skipBogus] at h
    split at h
    · rename_i hq
      subst h
      have hm := hw.mem List.mem_cons_self
      obtain ⟨hx, hat, hpos, -, hrest⟩ := hw
      have hat : nvlogAt L L.headCnt = some q.2 := hat
      have ht : L.headCnt + q.2.size = L.tailCnt := hrest
      rw [nvlogPeekHead, if_neg (by omega), hat]
      simp [hq, ht]
    · simp at h

theorem nvlogPeekHead_cons {L : Nvlog α} {es es' : List (ℕ × NvlogEntry α)} {y : ℕ}
    {e : NvlogEntry α} (hw : Walk L L.headCnt es L.tailCnt)
    (h : TimeStone.skipBogus es = (y, e) :: es') :
    nvlogPeekHead L = some (L.withHead y, some e) := by
  cases es with
  | nil => simp [TimeStone.skipBogus] at h
  | cons q es =>
    have hm := hw.mem List.mem_cons_self
    rw [TimeStone.skipBogus] at h
    split at h
    · rename_i hq
      subst h
      obtain ⟨hx, hat, hpos, -, hrest⟩ := hw
      have hm' := hrest.mem List.mem_cons_self
      obtain ⟨hy, hat', hpos', -, -⟩ := hrest
      have hat : nvlogAt L L.headCnt = some q.2 := hat
      have hat' : nvlogAt L (L.headCnt + q.2.size) = some e := hat'
      rw [nvlogPeekHead, if_neg (by omega), hat]
      have hne : L.headCnt + q.2.size ≠ L.tailCnt := by omega
      simp [hq, hne, hat', hy]
    · rename_i hq
      obtain ⟨rfl, -⟩ := List.cons.inj h
      obtain ⟨hx, hat, hpos, -, -⟩ := hw
      simp only at hx hq hm hpos
      have hat : nvlogAt L L.headCnt = some e := hat
      rw [nvlogPeekHead, if_neg (by omega), hat]
      simp [hq, hx]

/-- `nvlog_deq` at an entry moves the head over it. -/
theorem nvlogDeq_walk {L : Nvlog α} {es : List (ℕ × NvlogEntry α)} {y : ℕ}
    {e : NvlogEntry α} (hw : Walk L y ((y, e) :: es) L.tailCnt) (he : e.type = .entry) :
    nvlogDeq (L.withHead y) = some (L.withHead (y + e.size), some e) := by
  have hlt := hw.mem List.mem_cons_self
  obtain ⟨-, hat, hpos, -, -⟩ := hw
  have hat : nvlogAt L y = some e := hat
  have hne : y ≠ L.tailCnt := by omega
  simp [nvlogDeq, hne, hat, he]

/-- The filler that an enqueue inserts is well formed. -/
theorem bogusOk_filler {L : Nvlog α} {n : ℕ} (hlt : n < L.logSize) {p : ℕ × NvlogEntry α}
    (hp : p ∈ nvlogFiller L n) : BogusOk L p ∧ p.2.type = .bogus := by
  rw [nvlogFiller] at hp
  split at hp
  · rename_i hwr
    rw [List.mem_singleton] at hp
    subst hp
    refine ⟨fun _ => ⟨?_, ?_⟩, rfl⟩
    · rw [nvlogWraps, nvlogIndex, nvlogIndex] at hwr
      simp only
      omega
    · have := Nat.mod_lt L.tailCnt (show 0 < L.logSize by omega)
      refine Ring.index_end ?_
      simp only [nvlogBogusSize, nvlogIndex]
      omega
  · simp at hp

/-! ### Draining -/

/-- The bytes from head to tail decode as the entries `es` and fit the ring. -/
structure NvShape (L : Nvlog α) (es : List (ℕ × NvlogEntry α)) : Prop where
  walk : Walk L L.headCnt es L.tailCnt
  bogus : ∀ p ∈ es, BogusOk L p
  cap : L.tailCnt ≤ L.headCnt + L.logSize

/-- Draining a log moves its head to the start of an entry and leaves the items behind it. -/
theorem nvlogDrain_spec (go : Nvlog α → NvlogEntry α → Bool) :
    ∀ (fuel : ℕ) (L : Nvlog α) (es : List (ℕ × NvlogEntry α)), NvShape L es →
      es.length < fuel →
      ∃ d es', nvlogDrain go fuel L = some (L.withHead d) ∧ L.headCnt ≤ d ∧
        NvShape (L.withHead d) es' ∧ es' <:+ es := by
  intro fuel
  induction fuel with
  | zero =>
    intro L es _ hf
    omega
  | succ fuel ih =>
    intro L es hL hf
    have hcap := hL.cap
    have hle := hL.walk.le
    cases hes : skipBogus es with
    | nil =>
      refine ⟨L.tailCnt, [], ?_, hle, ⟨rfl, by simp, by simp⟩, List.nil_suffix⟩
      rw [nvlogDrain, nvlogPeekHead_nil hL.walk hes]
      rfl
    | cons q rest =>
      obtain ⟨y, e⟩ := q
      obtain ⟨c, hc, hw⟩ := hL.walk.skipBogus
      rw [hes] at hw
      have hy : y = c := hw.1
      subst hy
      have het := type_of_skipBogus hL.walk hL.bogus hes
      have hsub : ∀ p ∈ (y, e) :: rest, BogusOk L p := fun p hp =>
        hL.bogus p (mem_of_mem_skipBogus (by rw [hes]; exact hp))
      have hsuf : (y, e) :: rest <:+ es := by
        obtain ⟨pre, hpre, -⟩ := skipBogus_split es
        rw [hes] at hpre
        exact ⟨pre, hpre.symm⟩
      rw [nvlogDrain, nvlogPeekHead_cons hL.walk hes]
      simp only [Option.bind_eq_bind, Option.bind_some]
      split
      · -- drop the entry and go on behind it
        have hmem := hw.mem List.mem_cons_self
        have hlen := skipBogus_length es
        rw [hes, List.length_cons] at hlen
        rw [nvlogDeq_walk hw het]
        obtain ⟨-, -, -, -, hrest⟩ := hw
        obtain ⟨d, es', h1, h2, h3, h4⟩ := ih (L.withHead (y + e.size)) rest
          ⟨hrest, fun p hp => hsub p (List.mem_cons_of_mem _ hp), by
            simp only [tailCnt_withHead, headCnt_withHead, logSize_withHead]
            omega⟩ (by omega)
        simp only [headCnt_withHead] at h2
        exact ⟨d, es', h1, by omega, h3, h4.trans ((List.suffix_cons _ _).trans hsuf)⟩
      · refine ⟨y, (y, e) :: rest, rfl, hc, ⟨hw, hsub, ?_⟩, hsuf⟩
        simp only [tailCnt_withHead, headCnt_withHead, logSize_withHead]
        omega

end TimeStone
