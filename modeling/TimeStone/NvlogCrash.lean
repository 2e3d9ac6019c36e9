/-
The log after a crash.

A list of items is safe when the log decodes as these items and every line that they use is
stable (`SafeList`): whatever a crash leaves of the other lines, it is found again
(`AllSafe.decodes`).  Between two calls the items up to the durable tail are safe
(`Idle`).  A call keeps them safe by storing to other lines only, and makes its own items
safe before it moves a counter over them.

* `Runs` — every instruction of a call finds the log safe, and the last one leaves it idle;
* `Idle.enq`, `Idle.fill`, `Idle.enqPersist`, `Idle.reclaim` — the calls run;
* `decodes_ideal` — in every run that keeps to `CallOk`, a crash leaves a log that
  decodes as entries that were enqueued, with their contents;
* `crash_in_filler` — without the condition a crash may leave one that does not.

The memory is the one that the log is written for (`execIdeal`).
-/
import TimeStone.NvlogPersist

namespace TimeStone.ByteLog

open Bytes Pmem

/-- The bytes of an item that a reader looks at. -/
def Hdr.span (h : Hdr) : ℕ := if h.bogus then 64 else h.size

variable {n : ℕ} {written written' : ℕ → Option Entry} {m : Nvm} {p q : ℕ × Hdr}
  {ds new : List (ℕ × Hdr)} {h t : ℕ}

/-- The entry at an item, with the bytes that were stored to it. -/
structure IsEntry (n : ℕ) (written : ℕ → Option Entry) (b : ℕ → UInt8) (p : ℕ × Hdr)
    (e : Entry) : Prop where
  record : written p.1 = some e
  size : p.2.size = nvlogEntrySize e.objSize
  stores : ∀ s ∈ e.stores, s.addr < p.2.size
  holds : Holds (fun i => b (p.1 % n + i)) e.stores

/-- An item whose lines are stable. -/
structure SafeItem (n : ℕ) (written : ℕ → Option Entry) (m : Nvm) (p : ℕ × Hdr) : Prop where
  big : 64 ≤ p.2.span
  stable : ∀ i < p.2.span, (m.line ((p.1 % n + i) / cacheLineSize)).Stable
  entry : p.2.bogus = false → ∃ e, IsEntry n written m.bytes p e

/-- The log decodes from `h` to `t` as the items `ds`, whose lines are stable. -/
structure SafeList (n : ℕ) (written : ℕ → Option Entry) (m : Nvm) (h : ℕ)
    (ds : List (ℕ × Hdr)) (t : ℕ) : Prop where
  walk : Ring.Walk n Hdr.size (fun i => some (hdrAt m.bytes i)) h ds t
  item : ∀ p ∈ ds, SafeItem n written m p

/-- Whatever counters a crash leaves, the items between them are safe. -/
def AllSafe (n : ℕ) (written : ℕ → Option Entry) (m : Nvm) : Prop :=
  ∀ h t, m.headCnt.Durable h → m.tailCnt.Durable t → ∃ ds, SafeList n written m h ds t

/-! ### What a crash leaves -/

theorem hdrAt_congr {b b' : ℕ → UInt8} {i : ℕ} (hb : ∀ j < 64, b' (i + j) = b (i + j)) :
    hdrAt b' i = hdrAt b i := by
  have hload : ∀ k w, k + w ≤ 64 → load b' (i + k) w = load b (i + k) w := by
    intro k w hk
    refine load_congr fun j h1 h2 => ?_
    obtain ⟨l, rfl⟩ : ∃ l, j = i + l := ⟨j - i, by omega⟩
    exact hb l (by omega)
  have hsize : sizeAt b' i = sizeAt b i := hload 8 4 (by omega)
  have htype : typeAt b' i = typeAt b i := hload 12 2 (by omega)
  rw [hdrAt, hsize, htype, hdrAt]

/-- The bytes of an item determine how it decodes. -/
theorem SafeItem.congr {m' : Nvm} (hp : SafeItem n written m p)
    (hb : ∀ i < p.2.span, m'.bytes (p.1 % n + i) = m.bytes (p.1 % n + i))
    (hs : ∀ i < p.2.span, (m'.line ((p.1 % n + i) / cacheLineSize)).Stable) :
    SafeItem n written m' p := by
  refine ⟨hp.big, hs, fun hb' => ?_⟩
  obtain ⟨e, he⟩ := hp.entry hb'
  refine ⟨e, he.record, he.size, he.stores, he.holds.congr fun s hs => hb _ ?_⟩
  rw [Hdr.span, hb']
  exact he.stores s hs

/-- A crash leaves the bytes of a stable line. -/
theorem image_byte {s : PSt} {D : Nvlog} (hD : Image s D) {a : ℕ}
    (hs : (s.nvm.line (a / cacheLineSize)).Stable) : D.buffer a = s.nvm.bytes a := by
  obtain ⟨c, hc, hb⟩ := hD.2.2.2 (a / cacheLineSize)
  have hlt : a % cacheLineSize < cacheLineSize := Nat.mod_lt _ (by decide)
  rw [← Nat.div_add_mod a cacheLineSize, hb _ hlt, Cell.durable_of_stable hs hc, Nvm.bytes,
    Nat.div_add_mod]

/-- A safe log is found again after a crash. -/
theorem AllSafe.decodes {s : PSt} (hsafe : AllSafe s.logSize s.written s.nvm) {D : Nvlog}
    (hD : Image s D) : Decodes s.written D := by
  obtain ⟨ds, hds⟩ := hsafe _ _ hD.2.1 hD.2.2.1
  have hbyte : ∀ p ∈ ds, ∀ i < p.2.span, D.buffer (p.1 % D.logSize + i) =
      s.nvm.bytes (p.1 % D.logSize + i) := by
    intro p hp i hi
    rw [hD.1]
    exact image_byte hD ((hds.item p hp).stable i hi)
  refine ⟨ds, ?_, fun p hp hb => ?_⟩
  · have hw := hds.walk
    rw [← hD.1] at hw
    refine hw.frame fun p hp => congrArg some (hdrAt_congr fun j hj => ?_)
    exact hbyte p hp j (Nat.lt_of_lt_of_le hj (hds.item p hp).big)
  · obtain ⟨e, he⟩ := (hds.item p hp).entry hb
    refine ⟨e, he.record, he.size, ?_⟩
    have hh := he.holds
    rw [← hD.1] at hh
    refine hh.congr fun st hst => hbyte p hp _ ?_
    rw [Hdr.span, hb]
    exact he.stores st hst

/-! ### Instructions -/

/-- The instruction stores to no line of the item. -/
def Op.Spares (n : ℕ) (p : ℕ × Hdr) : Op → Prop
  | .store s => ∀ i < p.2.span, (p.1 % n + i) / cacheLineSize ≠ s.addr / cacheLineSize
  | _ => True

/-- The instruction is about the buffer. -/
def Op.OnBuffer : Op → Prop
  | .store _ => True
  | .clwb _ => True
  | .fence => True
  | _ => False

theorem bytes_store (m : Nvm) (s : Store) : (m.execIdeal (.store s)).bytes = put m.bytes [s] := by
  funext a
  have hadd := Nat.div_add_mod a cacheLineSize
  have hadd' := Nat.div_add_mod s.addr cacheLineSize
  simp only [Nvm.bytes, Nvm.execIdeal, Nvm.storeByte, put, List.foldl_cons, List.foldl_nil]
  by_cases hl : a / cacheLineSize = s.addr / cacheLineSize
  · rw [if_pos hl]
    simp only [Cell.store]
    by_cases ho : a % cacheLineSize = s.addr % cacheLineSize
    · rw [if_pos ho, if_pos (by rw [← hadd, hl, ho, hadd'])]
    · rw [if_neg ho, if_neg fun h => ho (by rw [h])]
  · rw [if_neg hl, if_neg fun h => hl (by rw [h])]

theorem bytes_clwb (m : Nvm) (k : ℕ) : (m.execIdeal (.clwb k)).bytes = m.bytes := by
  funext a
  simp only [Nvm.bytes, Nvm.execIdeal]
  split <;> rfl

/-- An instruction that spares an item keeps it safe. -/
theorem SafeItem.exec {o : Op} (hp : SafeItem n written m p) (ho : o.Spares n p) :
    SafeItem n written (m.execIdeal o) p ∧
      hdrAt (m.execIdeal o).bytes (p.1 % n) = hdrAt m.bytes (p.1 % n) := by
  have hboth : (∀ i < p.2.span, (m.execIdeal o).bytes (p.1 % n + i) = m.bytes (p.1 % n + i)) ∧
      ∀ i < p.2.span, ((m.execIdeal o).line ((p.1 % n + i) / cacheLineSize)).Stable := by
    cases o with
    | store s =>
      refine ⟨fun i hi => ?_, fun i hi => ?_⟩
      · rw [bytes_store]
        refine put_of_notMem fun s' hs' heq => ho i hi ?_
        rw [List.mem_singleton] at hs'
        rw [← heq, hs']
      · simp only [Nvm.execIdeal, Nvm.storeByte, if_neg (ho i hi)]
        exact hp.stable i hi
    | clwb k =>
      refine ⟨fun i _ => by rw [bytes_clwb], fun i hi => ?_⟩
      simp only [Nvm.execIdeal]
      split
      · exact (hp.stable i hi).clwb
      · exact hp.stable i hi
    | fence => exact ⟨fun _ _ => rfl, fun i hi => (hp.stable i hi).fence⟩
    | storeHead c => exact ⟨fun _ _ => rfl, hp.stable⟩
    | clwbHead => exact ⟨fun _ _ => rfl, hp.stable⟩
    | storeTail c => exact ⟨fun _ _ => rfl, hp.stable⟩
    | clwbTail => exact ⟨fun _ _ => rfl, hp.stable⟩
  refine ⟨hp.congr hboth.1 hboth.2, hdrAt_congr fun j hj => ?_⟩
  exact hboth.1 j (Nat.lt_of_lt_of_le hj hp.big)

/-- An instruction that spares the items of a safe list keeps it. -/
theorem SafeList.exec {o : Op} (hl : SafeList n written m h ds t)
    (ho : ∀ p ∈ ds, o.Spares n p) : SafeList n written (m.execIdeal o) h ds t where
  walk := hl.walk.frame fun p hp => congrArg some ((hl.item p hp).exec (ho p hp)).2
  item := fun p hp => ((hl.item p hp).exec (ho p hp)).1

theorem SafeList.congr_written (hl : SafeList n written m h ds t)
    (hw : ∀ p ∈ ds, written' p.1 = written p.1) : SafeList n written' m h ds t := by
  refine ⟨hl.walk, fun p hp => ⟨(hl.item p hp).big, (hl.item p hp).stable, fun hb => ?_⟩⟩
  obtain ⟨e, he⟩ := (hl.item p hp).entry hb
  exact ⟨e, (hw p hp).trans he.record, he.size, he.stores, he.holds⟩

/-- The counters in memory are `h` and `t`. -/
structure Counters (m : Nvm) (h t : ℕ) : Prop where
  head : m.headCnt.Stable
  head_eq : m.headCnt.cur = h
  tail : m.tailCnt.Stable
  tail_eq : m.tailCnt.cur = t

theorem Counters.allSafe (hc : Counters m h t) (hl : SafeList n written m h ds t) :
    AllSafe n written m := by
  intro h' t' hh ht
  rw [Cell.durable_of_stable hc.head hh, Cell.durable_of_stable hc.tail ht, hc.head_eq,
    hc.tail_eq]
  exact ⟨ds, hl⟩

theorem Counters.exec {o : Op} (hc : Counters m h t) (ho : o.OnBuffer) :
    Counters (m.execIdeal o) h t := by
  cases o with
  | store s => exact ⟨hc.head, hc.head_eq, hc.tail, hc.tail_eq⟩
  | clwb k => exact ⟨hc.head, hc.head_eq, hc.tail, hc.tail_eq⟩
  | fence => exact ⟨hc.head.fence, hc.head_eq, hc.tail.fence, hc.tail_eq⟩
  | storeHead c => exact ho.elim
  | clwbHead => exact ho.elim
  | storeTail c => exact ho.elim
  | clwbTail => exact ho.elim

/-! ### Calls -/

/-- Perform a list of instructions. -/
def Nvm.execsIdeal (m : Nvm) (os : List Op) : Nvm := os.foldl Nvm.execIdeal m

/-- The log is safe before each of the instructions and behind them, and `Q` holds then. -/
def Runs (n : ℕ) (written : ℕ → Option Entry) (Q : Nvm → Prop) : List Op → Nvm → Prop
  | [], m => AllSafe n written m ∧ Q m
  | o :: os, m => AllSafe n written m ∧ Runs n written Q os (m.execIdeal o)

variable {Q : Nvm → Prop} {os rest : List Op}

theorem Runs.allSafe (h : Runs n written Q os m) : AllSafe n written m := by
  cases os with
  | nil => exact h.1
  | cons o os => exact h.1

/-- Instructions about the buffer that spare the items of a safe list run. -/
theorem Runs.append (hc : Counters m h t) (hl : SafeList n written m h ds t)
    (hos : ∀ o ∈ os, o.OnBuffer ∧ ∀ p ∈ ds, o.Spares n p)
    (hrest : Counters (m.execsIdeal os) h t → SafeList n written (m.execsIdeal os) h ds t →
      Runs n written Q rest (m.execsIdeal os)) : Runs n written Q (os ++ rest) m := by
  induction os generalizing m with
  | nil => exact hrest hc hl
  | cons o os ih =>
    obtain ⟨hb, hs⟩ := hos o List.mem_cons_self
    exact ⟨hc.allSafe hl, ih (hc.exec hb) (hl.exec hs)
      (fun o ho => hos o (List.mem_cons_of_mem _ ho)) hrest⟩

theorem bytes_stores (m : Nvm) (ss : List Store) :
    (m.execsIdeal (ss.map .store)).bytes = put m.bytes ss := by
  induction ss generalizing m with
  | nil => rfl
  | cons s ss ih =>
    rw [List.map_cons, Nvm.execsIdeal, List.foldl_cons]
    refine (ih _).trans ?_
    rw [bytes_store, ← put_append]
    rfl

/-- The stores of a call that spare the items of a safe list run. -/
theorem Runs.stores {ss : List Store} (hc : Counters m h t)
    (hl : SafeList n written m h ds t)
    (hss : ∀ s ∈ ss, ∀ p ∈ ds, (Op.store s).Spares n p)
    (hQ : ∀ m', m'.bytes = put m.bytes ss → Counters m' h t → SafeList n written m' h ds t →
      Q m') : Runs n written Q (ss.map .store) m := by
  rw [← List.append_nil (ss.map _)]
  refine Runs.append hc hl (fun o ho => ?_) fun hc' hl' => ?_
  · obtain ⟨s, hs, rfl⟩ := List.mem_map.mp ho
    exact ⟨trivial, hss s hs⟩
  · exact ⟨hc'.allSafe hl', hQ _ (bytes_stores m ss) hc' hl'⟩

/-! ### Between the calls -/

/-- The log between two calls: the items `ds` are durable, and `new` is the open batch. -/
structure Idle (s : PSt) (ds new : List (ℕ × Hdr)) (pend : List Entry) : Prop where
  good : Good s.log (ds ++ new) pend
  record : List.Forall₂ (fun e p => s.written p.1 = some e) pend (entries (ds ++ new))
  counters : Counters s.nvm s.headCnt s.nvm.tailCnt.cur
  walk : Walk s.log s.headCnt ds s.nvm.tailCnt.cur
  stable : ∀ p ∈ ds, ∀ i < p.2.span,
    (s.nvm.line ((p.1 % s.logSize + i) / cacheLineSize)).Stable
  clean : s.dirty = false → new = []
  live : ∀ c e, s.written c = some e → c < s.headCnt ∨ ∃ p ∈ entries (ds ++ new), p.1 = c
  small : s.logSize < 2 ^ 32

variable {s s' : PSt} {pend : List Entry} {L : Nvlog} {items : List (ℕ × Hdr)}

theorem Good.span_le (hg : Good L items pend) (hp : p ∈ items) :
    64 ≤ p.2.span ∧ p.2.span ≤ p.2.size ∧ 64 ∣ p.2.span := by
  have h3 := (hg.mem hp).2.2.1
  rw [Hdr.span]
  split
  · exact ⟨Nat.le_refl _, h3, Nat.dvd_refl _⟩
  · exact ⟨h3, Nat.le_refl _, (hg.item p hp).size⟩

/-- The record of an entry item. -/
theorem Idle.isEntry (h : Idle s ds new pend) (hp : p ∈ entries (ds ++ new)) :
    ∃ e, IsEntry s.logSize s.written s.nvm.bytes p e := by
  obtain ⟨k, hk, rfl⟩ := List.getElem_of_mem hp
  have hlen := h.good.pend.length_eq
  have he := h.good.pend.get (i := k) (by omega) hk
  have hr := h.record.get (i := k) (by omega) hk
  refine ⟨_, hr, he.size, he.stores, ?_⟩
  have hh := he.holds
  simp only [he.ptr] at hh
  exact hh

theorem Idle.safeItem (h : Idle s ds new pend) (hp : p ∈ ds ++ new)
    (hs : ∀ i < p.2.span, (s.nvm.line ((p.1 % s.logSize + i) / cacheLineSize)).Stable) :
    SafeItem s.logSize s.written s.nvm p :=
  ⟨(h.good.span_le hp).1, hs, fun hb => h.isEntry (mem_entries.mpr ⟨hp, hb⟩)⟩

/-- Between two calls the durable items are safe. -/
theorem Idle.safeList (h : Idle s ds new pend) :
    SafeList s.logSize s.written s.nvm s.headCnt ds s.nvm.tailCnt.cur :=
  ⟨h.walk, fun p hp => h.safeItem (List.mem_append_left _ hp) (h.stable p hp)⟩

/-- The batch goes from the durable tail to the tail. -/
theorem Idle.walk_new (h : Idle s ds new pend) :
    Walk s.log s.nvm.tailCnt.cur new s.tailCnt := by
  obtain ⟨c, h1, h2⟩ := h.good.walk.split
  have heq : c = s.nvm.tailCnt.cur := by
    rw [h1.end_eq, h.walk.end_eq]
    rfl
  rw [← heq]
  exact h2

/-! ### Enqueue -/

/-- A store to the line at the tail spares every item, as long as the tail is in the ring. -/
theorem Good.tail_spares (h : Good L items pend) (hlt : L.tailCnt < L.headCnt + L.logSize)
    (hp : p ∈ items) {st : Store} (h1 : L.tailCnt % L.logSize ≤ st.addr)
    (h2 : st.addr < L.tailCnt % L.logSize + 16) : (Op.store st).Spares L.logSize p := by
  intro i hi heq
  obtain ⟨g1, g2, g3, -, g5, hn⟩ := h.mem hp
  obtain ⟨-, hspan, -⟩ := h.span_le hp
  have hhead := h.head
  have htail := h.tail
  have halign := (Nat.dvd_mod_iff hn).mpr htail
  have hmod := Nat.mod_lt L.tailCnt (show 0 < L.logSize by omega)
  have hidx : (p.1 + i) % L.logSize = p.1 % L.logSize + i := Ring.index_add (by omega)
  refine Ring.append_disjoint (k := 64) (n := L.logSize) (Nat.le_refl (p.1 + i))
    (show p.1 + i < L.tailCnt by omega) (by omega) (by omega) ?_
  rw [hidx]
  simp only [cacheLineSize] at heq
  omega

/-- The stores of `nvlog_enq` spare the items before the new ones, unless it writes a filler
in a log that is exactly full. -/
theorem Good.enq_spares (h : Good L items pend) {objSize : ℕ} (hok : EnqOk L objSize)
    (hfull : nvlogEntrySize objSize < L.logSize → nvlogWraps L (nvlogEntrySize objSize) →
      L.tailCnt ≠ L.headCnt + L.logSize) {st : Store}
    (hst : st ∈ (nvlogEnq L objSize).1.stores) (hp : p ∈ items) :
    (Op.store st).Spares L.logSize p := by
  have he := nvlogEntrySize_eq hok.1
  by_cases hle : nvlogEntrySize objSize > L.logSize
  · simp only [nvlogEnq, if_pos hle, List.not_mem_nil] at hst
  have hroom : st ∈ (nvlogMakeRoom L (nvlogEntrySize objSize)).stores →
      (Op.store st).Spares L.logSize p := by
    intro hst
    rw [nvlogMakeRoom] at hst
    split at hst
    · rename_i hw
      have hpos : 0 < L.tailCnt % L.logSize := Nat.lt_of_le_of_lt (Nat.zero_le _) hw
      have hle' := h.cap.resolve_right (by omega)
      have hne : nvlogEntrySize objSize ≠ L.logSize := by
        intro heq
        rw [nvlogWraps, nvlogIndex, nvlogIndex, heq, Nat.add_mod_right] at hw
        exact Nat.lt_irrefl _ hw
      have hst := mem_bogusHdr hst
      exact h.tail_spares (Nat.lt_of_le_of_ne hle' (hfull (by omega) hw)) hp hst.1 hst.2
    · cases hst
  by_cases hcap : ulongSub ((nvlogMakeRoom L (nvlogEntrySize objSize)).tailCnt +
      nvlogEntrySize objSize) L.headCnt > L.logSize
  · simp only [nvlogEnq, if_neg hle, if_pos hcap] at hst
    exact hroom hst
  · simp only [nvlogEnq, if_neg hle, if_neg hcap, List.mem_append] at hst
    rcases hst with hst | hst
    · exact hroom hst
    · obtain ⟨hg, -, -⟩ := h.prepare hok (Nat.le_of_not_gt hle)
      have hst := mem_entryHdr hst
      refine hg.tail_spares ?_ (List.mem_append_left _ hp) hst.1 hst.2
      have hobj := hok.1
      have hover := h.over_iff (e := nvlogEntrySize objSize) (by omega)
      rw [hover] at hcap
      simp only [Nvlog.apply]
      omega

/-- The entry among the items that `nvlog_enq` appends. -/
theorem entries_nvlogAdded (L : Nvlog) (objSize : ℕ) :
    entries (nvlogAdded L objSize) = ((nvlogEnq L objSize).2.map fun _ =>
      ((nvlogMakeRoom L (nvlogEntrySize objSize)).tailCnt,
        (⟨nvlogEntrySize objSize, false⟩ : Hdr))).toList := by
  have hfiller : entries (nvlogFiller L (nvlogEntrySize objSize)) = [] := by
    rw [nvlogFiller]
    split <;> rfl
  by_cases hle : nvlogEntrySize objSize > L.logSize
  · simp only [nvlogAdded, nvlogEnq, if_pos hle]
    rfl
  by_cases hcap : ulongSub ((nvlogMakeRoom L (nvlogEntrySize objSize)).tailCnt +
      nvlogEntrySize objSize) L.headCnt > L.logSize
  · simp only [nvlogAdded, nvlogEnq, if_neg hle, if_pos hcap, List.append_nil]
    exact hfiller
  · simp only [nvlogAdded, nvlogEnq, if_neg hle, if_neg hcap]
    rw [entries, List.filter_append]
    rw [entries] at hfiller
    rw [hfiller]
    rfl

theorem tailCnt_le_nvlogMakeRoom (L : Nvlog) (entrySize : ℕ) :
    L.tailCnt ≤ (nvlogMakeRoom L entrySize).tailCnt := by
  rw [nvlogMakeRoom]
  split
  · exact Nat.le_add_right _ _
  · exact Nat.le_refl _

/-- What holds behind the instructions of a call. -/
def After (s : PSt) (m : Nvm) : Prop :=
  ∃ ds new pend, Idle { s with nvm := m, todo := [] } ds new pend

/-- The state of the log and of the current call. -/
def PInv (s : PSt) : Prop := Runs s.logSize s.written (After s) s.todo s.nvm

/-- The records below the tail stay. -/
theorem written_enq_of_lt {n c : ℕ} (hs : pstepIdeal s (.enq n) = some s')
    (hc : c < (nvlogMakeRoom s.log (nvlogEntrySize n)).tailCnt) :
    s'.written c = s.written c := by
  simp only [pstepIdeal, pstepWith, Option.ite_none_right_eq_some, Option.some_inj] at hs
  obtain ⟨-, rfl⟩ := hs
  dsimp only
  split
  · rfl
  · exact if_neg (by omega)

theorem entries_append (xs ys : List (ℕ × Hdr)) : entries (xs ++ ys) = entries xs ++ entries ys :=
  List.filter_append _ _

theorem Idle.enq (h : Idle s ds new pend) {objSize : ℕ} (hok : CallOk s (.enq objSize))
    (hs : pstepIdeal s (.enq objSize) = some s') : PInv s' := by
  obtain ⟨hobj, hfull, hwhole⟩ := hok
  have hok : EnqOk s.log objSize :=
    ⟨hobj, fun h1 h2 h3 => absurd h3 (hfull h1 h2), hwhole⟩
  obtain ⟨hg, -⟩ := h.good.enq hok
  -- the items that were there keep their records
  have hlt : ∀ p ∈ ds ++ new, p.1 < (nvlogMakeRoom s.log (nvlogEntrySize objSize)).tailCnt := by
    intro p hp
    have h1 := h.good.mem hp
    have h2 := tailCnt_le_nvlogMakeRoom s.log (nvlogEntrySize objSize)
    omega
  have hw : ∀ p ∈ ds ++ new, s'.written p.1 = s.written p.1 := fun p hp =>
    written_enq_of_lt hs (hlt p hp)
  simp only [pstepIdeal, pstepWith, Option.ite_none_right_eq_some, Option.some_inj] at hs
  obtain ⟨-, rfl⟩ := hs
  refine Runs.stores h.counters
    (h.safeList.congr_written fun p hp => hw p (List.mem_append_left _ hp))
    (fun st hst p hp => h.good.enq_spares hok hfull hst (List.mem_append_left _ hp)) ?_
  intro m hm hc hl
  have hent := entries_nvlogAdded s.log objSize
  have hlog : (⟨s.headCnt, (nvlogEnq s.log objSize).1.tailCnt, s.logSize, m.bytes⟩ : Nvlog) =
      s.log.apply (nvlogEnq s.log objSize).1 := by
    rw [hm]
    rfl
  rw [← hlog, List.append_assoc] at hg
  refine ⟨ds, new ++ nvlogAdded s.log objSize, _, hg, ?_, ?_, ?_,
    fun p hp => (hl.item p hp).stable, fun hm => (by cases hm), ?_, h.small⟩
  · rw [← List.append_assoc, entries_append, hent]
    refine List.rel_append (forall₂_imp_mem h.record fun e p hp he => ?_) ?_
    · exact (hw p (mem_entries.mp hp).1).trans he
    · cases hr : (nvlogEnq s.log objSize).2 with
      | none => exact .nil
      | some a => exact .cons (if_pos rfl) .nil
  · exact ⟨hc.head, hc.head_eq, hc.tail, rfl⟩
  · rw [hc.tail_eq]
    exact hl.walk
  · intro c e hce
    rw [← List.append_assoc, entries_append, hent]
    cases hr : (nvlogEnq s.log objSize).2 with
    | none =>
      simp only [hr] at hce
      simpa [hr] using h.live c e hce
    | some a =>
      simp only [hr] at hce
      by_cases hcc : c = (nvlogMakeRoom s.log (nvlogEntrySize objSize)).tailCnt
      · exact .inr ⟨_, List.mem_append_right _ List.mem_cons_self, hcc.symm⟩
      · rw [if_neg hcc] at hce
        refine (h.live c e hce).imp_right fun hex => ?_
        obtain ⟨p, hp, hpc⟩ := hex
        exact ⟨p, List.mem_append_left _ hp, hpc⟩

/-! ### Filling an entry -/

/-- A store to an entry spares the other items. -/
theorem Good.entry_spares (h : Good L items pend) (hp : p ∈ items) (hq : q ∈ entries items)
    (hpq : p.1 + p.2.size ≤ q.1 ∨ q.1 + q.2.size ≤ p.1) {st : Store}
    (h1 : q.1 % L.logSize ≤ st.addr) (h2 : st.addr < q.1 % L.logSize + q.2.size) :
    (Op.store st).Spares L.logSize p := by
  intro i hi heq
  obtain ⟨-, -, -, -, g5, hn⟩ := h.mem hp
  obtain ⟨hbig, hspan, hdvd⟩ := h.span_le hp
  have halign := (Nat.dvd_mod_iff hn).mpr (h.item p hp).cnt
  simp only [cacheLineSize] at heq
  -- the item consists of whole lines, so the address is in it
  obtain ⟨j, hj, hadd⟩ : ∃ j < p.2.span, st.addr = p.1 % L.logSize + j :=
    ⟨st.addr - p.1 % L.logSize, by omega, by omega⟩
  have hne : p.1 % L.logSize + j ≠ q.1 % L.logSize + (st.addr - q.1 % L.logSize) := by
    cases hb : p.2.bogus with
    | true =>
      rw [Hdr.span, hb] at hj
      exact h.apart hp hq hpq hj (by omega)
    | false =>
      rw [Hdr.span, hb] at hj
      exact h.entries_apart (mem_entries.mpr ⟨hp, hb⟩) hq hpq hj (by omega)
  omega

/-- The entry of the open batch at a counter, with its place among the pending ones. -/
theorem Idle.find (h : Idle s ds new pend) {c : ℕ} {e : Entry} (hw : s.written c = some e)
    (hc : s.nvm.tailCnt.cur ≤ c) : ∃ (k : ℕ) (q : ℕ × Hdr), (entries (ds ++ new))[k]? = some q ∧ q ∈ new ∧
      q.1 = c ∧ pend[k]? = some e := by
  have hle := h.walk.le
  obtain ⟨q, hq, rfl⟩ := (h.live c e hw).resolve_left (by omega)
  obtain ⟨k, hk, hkq⟩ := List.getElem_of_mem hq
  -- the items that are durable are below the counter
  have hnew : q ∈ new := by
    refine (List.mem_append.mp (mem_entries.mp hq).1).resolve_left fun hd => ?_
    have := h.walk.mem hd
    omega
  have hlen := h.good.pend.length_eq
  have hrec : s.written (entries (ds ++ new))[k].1 = some pend[k] :=
    h.record.get (i := k) (by omega) hk
  rw [hkq, hw, Option.some_inj] at hrec
  refine ⟨k, q, by rw [List.getElem?_eq_getElem hk, hkq], hnew, rfl, ?_⟩
  rw [List.getElem?_eq_getElem, hrec]

theorem mayFill_lt {objSize off w v : ℕ} (hm : mayFill objSize off w v)
    (hf : sizeofNvlogEntryHdr + objSize ≤ nvlogEntrySize objSize) :
    off + w ≤ nvlogEntrySize objSize := by
  simp only [mayFill, sizeofNvlogEntryHdr] at hm hf
  omega

theorem Idle.fill (h : Idle s ds new pend) {c off w v : ℕ}
    (hs : pstepIdeal s (.fill c off w v) = some s') : PInv s' := by
  simp only [pstepIdeal, pstepWith, Option.bind_eq_bind, Option.ite_none_right_eq_some,
    Option.bind_eq_some_iff, Option.some_inj] at hs
  obtain ⟨-, e, hw, ⟨hc, hm⟩, rfl⟩ := hs
  obtain ⟨k, q, hkq, hq, rfl, hke⟩ := h.find hw hc
  have hqe : q ∈ entries (ds ++ new) := List.mem_of_getElem? hkq
  have hqi := (mem_entries.mp hqe).1
  have hpw := List.pairwise_append.mp h.good.walk.pairwise
  have hok : EntryOk s.logSize s.nvm.bytes e q := by
    obtain ⟨hk1, rfl⟩ := List.getElem?_eq_some_iff.mp hke
    obtain ⟨hk2, rfl⟩ := List.getElem?_eq_some_iff.mp hkq
    exact h.good.pend.get hk1 hk2
  have hlen := mayFill_lt hm hok.fits
  have hsize := hok.size
  have hne : ∀ p ∈ ds, p.1 ≠ q.1 := by
    intro p hp heq
    have h1 := hpw.2.2 p hp q hq
    have h2 := h.good.mem (List.mem_append_left new hp)
    omega
  refine Runs.stores h.counters (h.safeList.congr_written fun p hp => if_neg (hne p hp)) ?_ ?_
  · intro st hst p hp
    have hst := mem_word hst
    rw [hok.ptr] at hst
    exact h.good.entry_spares (List.mem_append_left _ hp) hqe (.inl (hpw.2.2 p hp q hq))
      (show q.1 % s.logSize ≤ st.addr by omega)
      (show st.addr < q.1 % s.logSize + q.2.size by omega)
  intro m hm' hc' hl
  have hg := h.good.fill hke hm
  have hlog : (⟨s.headCnt, s.tailCnt, s.logSize, m.bytes⟩ : Nvlog) =
      s.log.apply ⟨word (e.ptr + off) w v, s.log.tailCnt⟩ := by
    rw [hm']
    rfl
  rw [← hlog] at hg
  refine ⟨ds, new, _, hg, ?_, ⟨hc'.head, hc'.head_eq, hc'.tail, rfl⟩, ?_,
    fun p hp => (hl.item p hp).stable, h.clean, ?_, h.small⟩
  · refine forall₂_set h.record (fun p hp => ?_) fun j e' p hj hp he => ?_
    · rw [hkq, Option.some_inj] at hp
      subst hp
      exact if_pos rfl
    · refine (if_neg fun heq => ?_).trans he
      obtain ⟨hj1, rfl⟩ := List.getElem?_eq_some_iff.mp hp
      obtain ⟨hk2, rfl⟩ := List.getElem?_eq_some_iff.mp hkq
      have hpe := List.pairwise_iff_getElem.mp h.good.pairwise
      have h1 := h.good.mem (mem_entries.mp (List.getElem_mem hj1)).1
      have h2 := h.good.mem (mem_entries.mp (List.getElem_mem hk2)).1
      rcases Nat.lt_or_gt_of_ne hj with hjk | hjk
      · have := hpe j k hj1 hk2 hjk
        omega
      · have := hpe k j hk2 hj1 hjk
        omega
  · rw [hc'.tail_eq]
    exact hl.walk
  · intro c e' hce
    by_cases hcq : c = q.1
    · exact .inr ⟨q, hqe, hcq.symm⟩
    · exact h.live c e' ((if_neg hcq).symm.trans hce)

/-! ### Persisting a batch -/

theorem mem_linesBetween {a b x : ℕ} (ha : 64 ∣ a) (h1 : a ≤ x) (h2 : x < b) :
    x / cacheLineSize ∈ linesBetween a b := by
  refine List.mem_map.mpr ⟨(x - a) / cacheLineSize, List.mem_range.mpr ?_, ?_⟩ <;>
  · simp only [cacheLineSize]
    omega

/-- The lines that `nvlog_enq_persist` writes back. -/
def flushed (L : Nvlog) (storeTailCnt : ℕ) : List ℕ :=
  if nvlogIndex L storeTailCnt < nvlogIndex L L.tailCnt then
    linesBetween (nvlogIndex L storeTailCnt) (nvlogIndex L L.tailCnt)
  else
    linesBetween (nvlogIndex L storeTailCnt) L.logSize ++ linesBetween 0 (nvlogIndex L L.tailCnt)

/-- Every line of a batch shorter than the log is written back. -/
theorem mem_flushed {c : ℕ} (halign : 64 ∣ t % L.logSize) (h1 : t ≤ c)
    (h2 : c < L.tailCnt) (hlt : L.tailCnt - t < L.logSize) :
    c % L.logSize / cacheLineSize ∈ flushed L t := by
  obtain ⟨d, rfl⟩ : ∃ d, c = t + d := ⟨c - t, by omega⟩
  obtain ⟨k, hk⟩ : ∃ k, L.tailCnt = t + k := ⟨L.tailCnt - t, by omega⟩
  have hmod := Nat.mod_lt t (show 0 < L.logSize by omega)
  rw [flushed, nvlogIndex, nvlogIndex, hk]
  by_cases hw : t % L.logSize + k < L.logSize
  · -- the batch does not reach the end of the ring
    rw [Ring.index_add hw, if_pos (by omega), Ring.index_add (by omega)]
    exact mem_linesBetween halign (by omega) (by omega)
  · rw [Ring.index_wrap (by omega) (by omega), if_neg (by omega), List.mem_append]
    by_cases hd : t % L.logSize + d < L.logSize
    · rw [Ring.index_add hd]
      exact .inl (mem_linesBetween halign (by omega) hd)
    · rw [Ring.index_wrap (by omega) (by omega)]
      exact .inr (mem_linesBetween (Nat.dvd_zero _) (by omega) (by omega))

/-- `nvlog_enq_persist` on a log with 32-bit indices. -/
theorem nvlogEnqPersist_eq (h0 : 0 < L.logSize) (hsmall : L.logSize < 2 ^ 32) (h1 : t ≤ L.tailCnt)
    (hlt : L.tailCnt - t < L.logSize) : nvlogEnqPersist L t =
      if t = L.tailCnt then []
      else (flushed L t).map .clwb ++ [.fence, .storeTail L.tailCnt, .clwbTail] := by
  have hu : ∀ c, uint (nvlogIndex L c) = nvlogIndex L c := by
    intro c
    have := Nat.mod_lt c h0
    exact Nat.mod_eq_of_lt (by rw [nvlogIndex]; omega)
  have heq : nvlogIndex L t = nvlogIndex L L.tailCnt ↔ t = L.tailCnt := by
    refine ⟨fun heq => ?_, fun heq => by rw [heq]⟩
    exact Ring.index_inj (h := t) (Nat.le_refl _) (by omega) h1 (by omega) heq
  simp only [nvlogEnqPersist, hu, heq, flushed]

theorem execs_clwb (ks : List ℕ) (m : Nvm) :
    (m.execsIdeal (ks.map .clwb)).bytes = m.bytes ∧
      ∀ i, (m.line i).late = [] ∨ i ∈ ks → ((m.execsIdeal (ks.map .clwb)).line i).late = [] := by
  induction ks generalizing m with
  | nil => exact ⟨rfl, fun i hi => hi.resolve_right List.not_mem_nil⟩
  | cons k ks ih =>
    obtain ⟨h1, h2⟩ := ih (m.execIdeal (.clwb k))
    refine ⟨h1.trans (bytes_clwb m k), fun i hi => h2 i ?_⟩
    by_cases hik : i = k
    · refine .inl ?_
      simp only [Nvm.execIdeal, if_pos hik]
      rfl
    · refine hi.imp (fun h => ?_) fun h => (List.mem_cons.mp h).resolve_left hik
      simp only [Nvm.execIdeal, if_neg hik]
      exact h

/-- Write-backs and a fence make lines stable. -/
theorem execs_flush (ks : List ℕ) (m : Nvm) :
    (m.execsIdeal (ks.map .clwb ++ [.fence])).bytes = m.bytes ∧
      ∀ i ∈ ks, ((m.execsIdeal (ks.map .clwb ++ [.fence])).line i).Stable := by
  obtain ⟨h1, h2⟩ := execs_clwb ks m
  have heq : m.execsIdeal (ks.map .clwb ++ [.fence]) = (m.execsIdeal (ks.map .clwb)).execIdeal .fence := by
    simp [Nvm.execsIdeal]
  rw [heq]
  exact ⟨h1, fun i hi => Cell.stable_fence (h2 i (.inr hi))⟩

/-- A counter may move over safe items. -/
theorem AllSafe.of_two {h' t' : ℕ} {ds' : List (ℕ × Hdr)}
    (hl : SafeList n written m h ds t) (hl' : SafeList n written m h' ds' t')
    (hd : ∀ x y, m.headCnt.Durable x → m.tailCnt.Durable y → x = h ∧ y = t ∨ x = h' ∧ y = t') :
    AllSafe n written m := by
  intro x y hx hy
  obtain ⟨rfl, rfl⟩ | ⟨rfl, rfl⟩ := hd x y hx hy
  · exact ⟨ds, hl⟩
  · exact ⟨ds', hl'⟩

/-- Move the durable tail over safe items. -/
theorem Runs.storeTail {ds' : List (ℕ × Hdr)} {t' : ℕ} (hc : Counters m h t)
    (hl : SafeList n written m h ds t) (hl' : SafeList n written m h ds' t')
    (hQ : ∀ m', m'.bytes = m.bytes → Counters m' h t' → SafeList n written m' h ds' t' →
      Q m') : Runs n written Q [.storeTail t', .clwbTail, .fence] m := by
  have h1 := hl.exec (o := .storeTail t') fun _ _ => trivial
  have h1' := hl'.exec (o := .storeTail t') fun _ _ => trivial
  have h2 := h1.exec (o := .clwbTail) fun _ _ => trivial
  have h2' := h1'.exec (o := .clwbTail) fun _ _ => trivial
  have h3 := h2'.exec (o := .fence) fun _ _ => trivial
  have hc3 : Counters (((m.execIdeal (.storeTail t')).execIdeal .clwbTail).execIdeal .fence) h t' :=
    ⟨hc.head.fence, hc.head_eq, Cell.stable_fence rfl, rfl⟩
  have hd : ∀ x y, m.headCnt.Durable x → (m.tailCnt.store t').Durable y →
      x = h ∧ y = t ∨ x = h ∧ y = t' := by
    intro x y hx hy
    have hx := (Cell.durable_of_stable hc.head hx).trans hc.head_eq
    rcases Cell.durable_store hc.tail hy with hy | hy
    · exact .inr ⟨hx, hy⟩
    · exact .inl ⟨hx, hy.trans hc.tail_eq⟩
  exact ⟨hc.allSafe hl, .of_two h1 h1' hd, .of_two h2 h2' hd, hc3.allSafe h3, hQ _ rfl hc3 h3⟩

/-- Move the durable head over safe items. -/
theorem Runs.storeHead {ds' : List (ℕ × Hdr)} {h' : ℕ} (hc : Counters m h t)
    (hl : SafeList n written m h ds t) (hl' : SafeList n written m h' ds' t)
    (hQ : ∀ m', m'.bytes = m.bytes → Counters m' h' t → SafeList n written m' h' ds' t →
      Q m') : Runs n written Q [.storeHead h', .clwbHead, .fence] m := by
  have h1 := hl.exec (o := .storeHead h') fun _ _ => trivial
  have h1' := hl'.exec (o := .storeHead h') fun _ _ => trivial
  have h2 := h1.exec (o := .clwbHead) fun _ _ => trivial
  have h2' := h1'.exec (o := .clwbHead) fun _ _ => trivial
  have h3 := h2'.exec (o := .fence) fun _ _ => trivial
  have hc3 : Counters (((m.execIdeal (.storeHead h')).execIdeal .clwbHead).execIdeal .fence) h' t :=
    ⟨Cell.stable_fence rfl, rfl, hc.tail.fence, hc.tail_eq⟩
  have hd : ∀ x y, (m.headCnt.store h').Durable x → m.tailCnt.Durable y →
      x = h ∧ y = t ∨ x = h' ∧ y = t := by
    intro x y hx hy
    have hy := (Cell.durable_of_stable hc.tail hy).trans hc.tail_eq
    rcases Cell.durable_store hc.head hx with hx | hx
    · exact .inr ⟨hx, hy⟩
    · exact .inl ⟨hx.trans hc.head_eq, hy⟩
  exact ⟨hc.allSafe hl, .of_two h1 h1' hd, .of_two h2 h2' hd, hc3.allSafe h3, hQ _ rfl hc3 h3⟩

/-- The fence after a call that had nothing to persist. -/
theorem Runs.fence (hc : Counters m h t) (hl : SafeList n written m h ds t)
    (hQ : ∀ m', m'.bytes = m.bytes → Counters m' h t → SafeList n written m' h ds t → Q m') :
    Runs n written Q [.fence] m := by
  have hc' := hc.exec (o := .fence) trivial
  have hl' := hl.exec (o := .fence) fun _ _ => trivial
  exact ⟨hc.allSafe hl, hc'.allSafe hl', hQ _ rfl hc' hl'⟩

/-- Items start and end at lines. -/
theorem Good.dvd_walk (h : Good L items pend) {c d : ℕ} (hsub : ∀ p ∈ ds, p ∈ items)
    (hc : 64 ∣ c) (hw : Walk L c ds d) : 64 ∣ d := by
  induction ds generalizing c with
  | nil =>
    have heq : c = d := hw
    exact heq ▸ hc
  | cons p ds ih =>
    obtain ⟨-, -, -, -, hrest⟩ := hw
    have hsize := (h.item p (hsub p List.mem_cons_self)).size
    exact ih (fun q hq => hsub q (List.mem_cons_of_mem _ hq))
      ((Nat.dvd_add_right hc).mpr hsize) hrest

theorem Idle.dvd_tail (h : Idle s ds new pend) : 64 ∣ s.nvm.tailCnt.cur :=
  h.good.dvd_walk (fun _ hp => List.mem_append_left _ hp) h.good.head h.walk

/-- The first items of a log, up to counter `t`, are a log. -/
theorem Good.first_items (h : Good L (ds ++ new) pend) (hw : Walk L L.headCnt ds t) :
    Good { L with tailCnt := t } ds (pend.take (entries ds).length) := by
  have hfirst : ∀ p ∈ ds, p ∈ ds ++ new := fun p hp => List.mem_append_left _ hp
  have hpend := h.pend
  rw [entries_append] at hpend
  refine ⟨h.pow, h.head, h.dvd_walk hfirst h.head hw, hw, fun p hp => h.item p (hfirst p hp), ?_, ?_,
    List.forall₂_take_append _ _ _ hpend⟩
  · intro p hp
    obtain ⟨d, ds', rfl⟩ := List.exists_cons_of_ne_nil (List.ne_nil_of_mem hp)
    exact h.full p (hfirst p hp)
  · -- the log ends where the next item starts
    obtain ⟨c, h1, h2⟩ := h.walk.split
    have hc : c = t := h1.end_eq.trans hw.end_eq.symm
    subst hc
    rcases new with _ | ⟨q, new⟩
    · have heq : c = L.tailCnt := h2
      rw [heq]
      exact h.cap
    · left
      have hq : q.1 = c := h2.1
      have hi := h.item q (by simp)
      rw [← hq]
      rcases hb : q.2.bogus with _ | _
      · exact (Nat.le_add_right _ _).trans (hi.entry hb)
      · exact (hi.bogus hb).2.2

/-- Between two calls a crash leaves the counters. -/
theorem Idle.image_counters (h : Idle s ds new pend) {D : Nvlog} (hD : Image s D) :
    D.headCnt = s.headCnt ∧ D.tailCnt = s.nvm.tailCnt.cur :=
  ⟨(Cell.durable_of_stable h.counters.head hD.2.1).trans h.counters.head_eq,
    Cell.durable_of_stable h.counters.tail hD.2.2.1⟩

/-- Between two calls a crash leaves the durable items, as a log of their own. -/
theorem Idle.good_image (h : Idle s ds new pend) {D : Nvlog} (hD : Image s D) :
    Good D ds (pend.take (entries ds).length) ∧
      List.Forall₂ (fun e p => s.written p.1 = some e) (pend.take (entries ds).length)
        (entries ds) := by
  obtain ⟨hhead, htail⟩ := h.image_counters hD
  have hbyte : ∀ p ∈ ds, ∀ i < p.2.span, D.buffer (p.1 % s.logSize + i) =
      s.nvm.bytes (p.1 % s.logSize + i) :=
    fun p hp i hi => image_byte hD (h.stable p hp i hi)
  have hspan : ∀ p ∈ ds, 64 ≤ p.2.span :=
    fun p hp => (h.good.span_le (List.mem_append_left _ hp)).1
  have hgood := (h.good.first_items h.walk).frame (b := D.buffer)
    (fun p hp => hdrAt_congr fun j hj => hbyte p hp j (hj.trans_le (hspan p hp)))
    (fun p hp i hi => by
      obtain ⟨hp, hb⟩ := mem_entries.mp hp
      exact hbyte p hp i (by rw [Hdr.span, hb]; exact hi))
  constructor
  · have heq : D = ⟨s.headCnt, s.nvm.tailCnt.cur, s.logSize, D.buffer⟩ := by
      rw [← hhead, ← htail, ← hD.1]
    rw [heq]
    exact hgood
  · have hrecord := h.record
    rw [entries_append] at hrecord
    exact List.forall₂_take_append _ _ _ hrecord

/-- The whole batch is durable. -/
theorem Idle.of_persisted (h : Idle s ds new pend) {m : Nvm} (hb : m.bytes = s.nvm.bytes)
    (hc : Counters m s.headCnt s.tailCnt)
    (hl : SafeList s.logSize s.written m s.headCnt (ds ++ new) s.tailCnt) :
    Idle { s with nvm := m, todo := [], dirty := false } (ds ++ new) [] pend := by
  have hle := h.walk_new.le
  refine ⟨?_, ?_, ⟨hc.head, hc.head_eq, hc.tail, rfl⟩, ?_, fun p hp => (hl.item p hp).stable,
    fun _ => rfl, ?_, h.small⟩
  · rw [List.append_nil]
    have hg := h.good
    simp only [PSt.log, ← hb] at hg
    exact hg
  · rw [List.append_nil]
    exact h.record
  · rw [hc.tail_eq]
    exact hl.walk
  · rw [List.append_nil]
    exact h.live

theorem Idle.enqPersist (h : Idle s ds new pend) (hok : CallOk s .enqPersist)
    (hs : pstepIdeal s .enqPersist = some s') : PInv s' := by
  simp only [pstepIdeal, pstepWith, Option.ite_none_right_eq_some, Option.some_inj] at hs
  obtain ⟨-, rfl⟩ := hs
  have hok : s.tailCnt - s.nvm.tailCnt.cur < s.logSize := hok
  have hle := h.walk_new.le
  have hsafe := h.safeList
  rw [PInv]
  simp only
  rw [nvlogEnqPersist_eq (show 0 < s.log.logSize by simp only [PSt.log]; omega) h.small hle hok]
  split
  · -- the batch is empty
    rename_i heq
    have hnew : new = [] := by
      have := h.walk_new.length_le
      rw [heq] at this
      simpa [PSt.log] using this
    subst hnew
    refine Runs.fence h.counters hsafe fun m hb hc hl => ⟨_, _, _, h.of_persisted hb ?_ ?_⟩
    · rw [heq] at hc
      exact hc
    · rw [heq] at hl
      rw [List.append_nil]
      exact hl
  · have hops : (flushed s.log s.nvm.tailCnt.cur).map Op.clwb ++
        [.fence, .storeTail s.log.tailCnt, .clwbTail] ++ [.fence] =
        ((flushed s.log s.nvm.tailCnt.cur).map .clwb ++ [.fence]) ++
          [.storeTail s.tailCnt, .clwbTail, .fence] := by
      simp [PSt.log]
    obtain ⟨hb, hst⟩ := execs_flush (flushed s.log s.nvm.tailCnt.cur) s.nvm
    rw [hops]
    refine Runs.append h.counters hsafe ?_ fun hc hl => ?_
    · intro o ho
      rcases List.mem_append.mp ho with ho | ho
      · obtain ⟨k, -, rfl⟩ := List.mem_map.mp ho
        exact ⟨trivial, fun _ _ => trivial⟩
      · rw [List.mem_singleton] at ho
        subst ho
        exact ⟨trivial, fun _ _ => trivial⟩
    generalize s.nvm.execsIdeal ((flushed s.log s.nvm.tailCnt.cur).map .clwb ++ [.fence]) = m at *
    -- the lines of the batch are written back before the tail moves over them
    have hnew : SafeList s.logSize s.written m s.headCnt (ds ++ new) s.tailCnt := by
      refine ⟨?_, fun p hp => ?_⟩
      · have hw := h.good.walk
        simp only [PSt.log, ← hb] at hw
        exact hw
      rcases List.mem_append.mp hp with hpd | hpn
      · exact hl.item p hpd
      · obtain ⟨-, g2, g3, -, g5, hn⟩ := h.good.mem hp
        obtain ⟨hbig, hspan, -⟩ := h.good.span_le hp
        have g1 := (h.walk_new.mem hpn).1
        have htail : 64 ∣ s.nvm.tailCnt.cur := h.dvd_tail
        refine ⟨hbig, fun i hi => hst _ ?_, fun hpb => ?_⟩
        · have hidx : (p.1 + i) % s.logSize = p.1 % s.logSize + i :=
            Ring.index_add (show p.1 % s.log.logSize + i < s.log.logSize by omega)
          rw [← hidx]
          exact mem_flushed ((Nat.dvd_mod_iff hn).mpr htail) (by omega) (by omega) hok
        · rw [hb]
          exact h.isEntry (mem_entries.mpr ⟨hp, hpb⟩)
    refine Runs.storeTail hc hl hnew fun m' hb' hc' hl' => ?_
    exact ⟨_, _, _, h.of_persisted (hb'.trans hb) hc' hl'⟩

/-! ### Reclaiming -/

theorem forall₂_suffix {α β : Type*} {R : α → β → Prop} {l l₁ : List α} {l' l₁' : List β}
    (h : List.Forall₂ R l l') (h1 : l₁ <:+ l) (h1' : l₁' <:+ l')
    (hlen : l₁.length = l₁'.length) : List.Forall₂ R l₁ l₁' := by
  have hl := h.length_eq
  have := List.forall₂_drop (l.length - l₁.length) h
  rw [← List.suffix_iff_eq_drop.mp h1, hl, hlen, ← List.suffix_iff_eq_drop.mp h1'] at this
  exact this

theorem entries_suffix {xs ys : List (ℕ × Hdr)} (h : xs <:+ ys) : entries xs <:+ entries ys := by
  obtain ⟨zs, rfl⟩ := h
  rw [entries_append]
  exact List.suffix_append _ _

/-- The loop of a reclamation takes items off the head. -/
theorem Good.reclaimLoop (h : Good L items pend) (k : ℕ) :
    ∃ c items' pend', items' <:+ items ∧ pend' <:+ pend ∧
      ByteLog.reclaimLoop k L = L.withHead c ∧ Good (L.withHead c) items' pend' := by
  induction k generalizing L items pend with
  | zero =>
    obtain ⟨⟨c, items', hsub, heq, hg⟩, -⟩ := h.peek
    exact ⟨c, items', pend, hsub, List.suffix_refl _, heq, hg⟩
  | succ k ih =>
    obtain ⟨⟨c, items', hsub, heq, hg⟩, -⟩ := h.peek
    rw [ByteLog.reclaimLoop]
    split
    · rename_i L' hp
      rw [hp] at heq
      exact ⟨c, items', pend, hsub, List.suffix_refl _, heq, hg⟩
    · rename_i L' a hp
      rw [hp] at heq
      simp only at heq
      subst heq
      obtain ⟨⟨c', items'', hsub', heq', hg'⟩, -⟩ := hg.deq
      obtain ⟨d, is, es, h1, h2, h3, h4⟩ := ih hg'
      rw [heq']
      exact ⟨d, is, es, h1.trans (hsub'.trans hsub), h2.trans (List.tail_suffix _), h3, h4⟩

theorem Idle.reclaim (h : Idle s ds new pend) {k : ℕ} (hs : pstepIdeal s (.reclaim k) = some s') :
    PInv s' := by
  simp only [pstepIdeal, pstepWith, Option.ite_none_right_eq_some, Option.some_inj] at hs
  obtain ⟨⟨-, hd⟩, rfl⟩ := hs
  obtain rfl := h.clean hd
  obtain ⟨c, ds', pend', hsub, hsub', heq, hg⟩ := h.good.reclaimLoop k
  rw [List.append_nil] at hsub
  have hsafe := h.safeList
  have htail : s.nvm.tailCnt.cur = s.tailCnt := h.walk_new
  rw [PInv]
  simp only [heq, Nvlog.withHead]
  have hsafe' : SafeList s.logSize s.written s.nvm c ds' s.nvm.tailCnt.cur := by
    refine ⟨?_, fun p hp => hsafe.item p (hsub.subset hp)⟩
    rw [htail]
    exact hg.walk
  -- the entries that were taken off are behind the new head
  have hlive : ∀ c' e, s.written c' = some e → c' < c ∨ ∃ p ∈ entries ds', p.1 = c' := by
    intro c' e hce
    obtain ⟨pre, rfl⟩ := hsub
    obtain ⟨d, hpre, hrest⟩ := h.walk.split
    have hd : d = c := hrest.start_eq hsafe'.walk
    have hle := hpre.le
    rcases h.live c' e hce with hlt | ⟨p, hp, rfl⟩
    · exact .inl (by omega)
    · rw [List.append_nil, entries_append] at hp
      rcases List.mem_append.mp hp with hp | hp
      · have := hpre.mem (mem_entries.mp hp).1
        exact .inl (by omega)
      · exact .inr ⟨p, hp, rfl⟩
  have hafter : ∀ m', m'.bytes = s.nvm.bytes → Counters m' c s.nvm.tailCnt.cur →
      SafeList s.logSize s.written m' c ds' s.nvm.tailCnt.cur →
      Idle { s with headCnt := c, nvm := m', todo := [] } ds' [] pend' := by
    intro m' hb hc hl
    refine ⟨?_, ?_, ⟨hc.head, hc.head_eq, hc.tail, rfl⟩, ?_, fun p hp => (hl.item p hp).stable,
      fun _ => rfl, fun c' e hce => ?_, h.small⟩
    · rw [List.append_nil]
      simp only [PSt.log, Nvlog.withHead, ← hb] at hg
      exact hg
    · rw [List.append_nil]
      refine forall₂_suffix h.record hsub' ?_ hg.pend.length_eq
      rw [List.append_nil]
      exact entries_suffix hsub
    · rw [hc.tail_eq]
      exact hl.walk
    · rw [List.append_nil]
      exact hlive c' e hce
  rw [nvlogDeqPersist]
  split
  · rename_i hcc
    simp only [h.counters.head_eq] at hcc
    subst hcc
    exact Runs.fence h.counters hsafe' fun m' hb hc hl => ⟨_, _, _, hafter m' hb hc hl⟩
  · exact Runs.storeHead h.counters hsafe hsafe' fun m' hb hc hl => ⟨_, _, _, hafter m' hb hc hl⟩

/-! ### Runs -/

theorem PInv.init {k : ℕ} (h : IsPInit k s) : PInv s := by
  obtain ⟨h1, h2, h3, hk, h4, h5, -, h6, h7, h8⟩ := h
  have hstable : (Cell.mk' 0 : Cell ℕ).Stable := ⟨rfl, rfl⟩
  have ht : s.nvm.tailCnt.cur = 0 := by
    rw [h5]
    rfl
  have hidle : Idle s [] [] [] := by
    refine ⟨⟨⟨k, by omega, h3⟩, ?_, ?_, h1.trans h2.symm, nofun, nofun, .inl ?_, .nil⟩, .nil, ?_, ?_, nofun,
      fun _ => rfl, fun c e hce => ?_, ?_⟩
    · simp only [PSt.log, h1]
      exact Nat.dvd_zero _
    · simp only [PSt.log, h2]
      exact Nat.dvd_zero _
    · simp only [PSt.log]
      omega
    · refine ⟨h4 ▸ hstable, ?_, h5 ▸ hstable, rfl⟩
      rw [h4, h1]
      rfl
    · exact h1.trans ht.symm
    · rw [h8] at hce
      cases hce
    · rw [h3]
      exact Nat.pow_lt_pow_right (by decide) hk
  rw [PInv, h6]
  refine ⟨hidle.counters.allSafe hidle.safeList, [], [], [], ?_⟩
  rw [← h6]
  exact hidle

/-- Behind its instructions a call leaves the log idle. -/
theorem PInv.idle (h : PInv s) (ht : s.todo.isEmpty) : ∃ ds new pend, Idle s ds new pend := by
  rw [List.isEmpty_iff] at ht
  rw [PInv, ht] at h
  obtain ⟨-, ds, new, pend, hi⟩ := h
  rw [← ht] at hi
  exact ⟨ds, new, pend, hi⟩

theorem PInv.step {a : PAction} (h : PInv s) (ok : CallOk s a) (hs : pstepIdeal s a = some s') :
    PInv s' := by
  cases a with
  | enq n =>
    obtain ⟨ds, new, pend, hi⟩ := h.idle (Option.ite_none_right_eq_some.mp hs).1
    exact hi.enq ok hs
  | fill c off w v =>
    obtain ⟨ds, new, pend, hi⟩ := h.idle (Option.ite_none_right_eq_some.mp hs).1
    exact hi.fill hs
  | enqPersist =>
    obtain ⟨ds, new, pend, hi⟩ := h.idle (Option.ite_none_right_eq_some.mp hs).1
    exact hi.enqPersist ok hs
  | reclaim k =>
    obtain ⟨ds, new, pend, hi⟩ := h.idle (Option.ite_none_right_eq_some.mp hs).1.1
    exact hi.reclaim hs
  | op =>
    rw [pstepIdeal, pstepWith] at hs
    split at hs
    · cases hs
    · rename_i o os htodo
      rw [Option.some_inj] at hs
      subst hs
      rw [PInv, htodo] at h
      exact h.2

/-- On the memory that the log is written for, whatever a crash leaves at any point of a run
that keeps to `CallOk` decodes as fillers and entries that were enqueued, with the bytes
stored to them. -/
theorem decodes_ideal {k : ℕ} (h : Run.Reach (IsPInit k) pstepIdeal CallOk s) {D : Nvlog}
    (hD : Image s D) : Decodes s.written D := by
  have hinv : PInv s :=
    h.invariant (fun _ => PInv.init) fun _ _ _ hi ok hs => hi.step ok hs
  exact hinv.allSafe.decodes hD

/-- A log of 256 bytes before its first entry. -/
def pfresh256 : PSt where
  headCnt := 0
  tailCnt := 0
  logSize := 256
  nvm := ⟨fun _ => .mk' fun _ => 0, .mk' 0, .mk' 0, []⟩
  todo := []
  dirty := false
  written := fun _ => none

/-- The image of a crash in which every line has reached the memory. -/
def PSt.flushedImage (s : PSt) : Nvlog :=
  ⟨s.nvm.headCnt.cur, s.nvm.tailCnt.cur, s.logSize, s.nvm.bytes⟩

theorem image_flushedImage (s : PSt) : Image s s.flushedImage := by
  refine ⟨rfl, .inl rfl, .inl rfl, fun i => ⟨_, .inl rfl, fun j hj => ?_⟩⟩
  have hdiv : (cacheLineSize * i + j) / cacheLineSize = i := by
    simp only [cacheLineSize] at hj ⊢
    omega
  have hmod : (cacheLineSize * i + j) % cacheLineSize = j := by
    simp only [cacheLineSize] at hj ⊢
    omega
  simp only [PSt.flushedImage, Nvm.bytes, hdiv, hmod]

/-- A call with its `k` instructions. -/
def call (a : PAction) (k : ℕ) : List PAction := a :: List.replicate k .op

/-- An entry of one line, enqueued and made durable. -/
def append48 : List PAction := call (.enq 48) 28 ++ call .enqPersist 5

/-- Three entries, the first one taken off, and a fourth one behind a filler: the log is full
again up to its head. -/
def pfillUp : List PAction :=
  append48 ++ append48 ++ append48 ++ call (.reclaim 1) 3 ++
    call (.enq 48) 50 ++ call .enqPersist 6

theorem isPInit_pfresh256 : IsPInit 8 pfresh256 :=
  ⟨rfl, rfl, rfl, by decide, rfl, rfl, rfl, rfl, rfl, fun _ => rfl⟩

/-- `nvlog_enq` clears the header at the head of a full log before it makes it a filler.  A
crash at that point leaves a log that does not decode, even on this memory. -/
theorem crash_in_filler :
    ¬ ∀ k s D, Run.Reach (IsPInit k) pstepIdeal Run.any s → Image s D → Decodes s.written D := by
  intro h
  have hrun : (Run.exec pstepIdeal Run.any pfresh256 (pfillUp ++ call (.enq 176) 16)).map
      (fun s => decide (s.nvm.headCnt.cur = 64 ∧ s.nvm.tailCnt.cur = 320 ∧ s.logSize = 256 ∧
        sizeAt s.nvm.bytes 64 = 0)) = some true := by
    decide +kernel
  obtain ⟨s, hs, hd⟩ := Option.map_eq_some_iff.mp hrun
  obtain ⟨hh, ht, hn, hz⟩ := of_decide_eq_true hd
  obtain ⟨items, hw, -⟩ :=
    h 8 s _ (.of_exec (.init isPInit_pfresh256) hs) (image_flushedImage s)
  simp only [PSt.flushedImage, hh, ht, hn] at hw
  cases items with
  | nil =>
    have heq : 64 = 320 := hw
    omega
  | cons p items =>
    obtain ⟨-, hat, hpos, -⟩ := hw
    rw [← Option.some_inj.mp hat] at hpos
    exact absurd hz (Nat.ne_of_gt hpos)

end TimeStone.ByteLog
