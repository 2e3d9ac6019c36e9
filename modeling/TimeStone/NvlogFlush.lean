/-
What `nvlog_enq_persist` makes durable.

The function looks at the ring indices of the two tails.  It returns early if they are equal,
which they are when there is nothing to write back, and also when the batch is as long as the
log.  In between it calls `clwb` for every line of the batch, fences, and stores the tail.

The calls of `clwb` flush no line of the log, since the operand of the instruction is the
parameter of `clwb`.  `PersistsAll` is therefore about a memory: the one of the code
(`Nvm.exec`) or the one that the function is written for (`Nvm.execIdeal`).

The log may have been created or loaded after a crash (`fstep`), and every tail that is ever
stored is a multiple of the cache-line size (`aligned_of_reach`), so that the loops over the
lines miss none.

* `persistsAll_iff` — from every state that is reached `nvlog_enq_persist` persists the batch
  if and only if it is empty; it would if and only if the batch is shorter than the log.
-/
import TimeStone.NvlogClwb

namespace TimeStone.ByteLog

open Bytes Pmem

variable {exec : Nvm → Op → Nvm}

/-- The instruction stores to line `k` of the buffer. -/
def Op.StoresTo (k : ℕ) : Op → Prop
  | .store s => s.addr / cacheLineSize = k
  | _ => False

/-- The instruction flushes line `k`: whatever was stored to the line before, it is about to
be written back. -/
def Flushes (exec : Nvm → Op → Nvm) (k : ℕ) (o : Op) : Prop :=
  ∀ m, ((exec m o).line k).late = []

/-- Line `k` is flushed after the last store to it and before the fence that precedes the
store of the tail. -/
def FlushedBeforeTail (exec : Nvm → Op → Nvm) (ops : List Op) (k : ℕ) : Prop :=
  ∃ first o mid last cnt,
    ops = first ++ o :: (mid ++ .fence :: .storeTail cnt :: last) ∧
      Flushes exec k o ∧ ∀ o ∈ mid ++ last, ¬ o.StoresTo k

/-- A call of `nvlog_enq_persist` stores the tail, and every line of the batch is flushed
before and durable after it. -/
def PersistsAll (exec : Nvm → Op → Nvm) (s : PSt) : Prop :=
  let ops := nvlogEnqPersist s.log s.nvm.tailCnt.cur
  (ops.foldl exec s.nvm).tailCnt.cur = s.tailCnt ∧
    ∀ c, s.nvm.tailCnt.cur ≤ c → c < s.tailCnt →
      FlushedBeforeTail exec ops (nvlogIndex s.log c / cacheLineSize) ∧
        ((ops.foldl exec s.nvm).line (nvlogIndex s.log c / cacheLineSize)).Stable

/-! ### One call -/

theorem flushes_clwb (k : ℕ) : Flushes Nvm.execIdeal k (.clwb k) := by
  intro m
  simp only [Nvm.execIdeal, if_true]
  rfl

/-- No instruction flushes a line of the log. -/
theorem not_flushes (k : ℕ) (o : Op) : ¬ Flushes Nvm.exec k o := by
  intro h
  -- a line with a store that is not written back yet
  let m : Nvm := ⟨fun _ => (Cell.mk' fun _ => 0).store fun _ => 0, .mk' 0, .mk' 0, []⟩
  have hm := h m
  cases o with
  | store s =>
    simp only [Nvm.exec, Nvm.storeByte] at hm
    split at hm
    · simp [Cell.store] at hm
    · contradiction
  | clwb | fence | storeHead | clwbHead | storeTail | clwbTail => contradiction

/-- With equal ring indices there is no instruction. -/
theorem nvlogEnqPersist_of_index {L : Nvlog} {c : ℕ} (h : nvlogIndex L c = nvlogIndex L L.tailCnt) :
    nvlogEnqPersist L c = [] := by
  simp only [nvlogEnqPersist, h, if_true]

/-- An empty batch is persisted. -/
theorem persistsAll_of_eq {s : PSt} (h : s.tailCnt = s.nvm.tailCnt.cur) : PersistsAll exec s := by
  have hops : nvlogEnqPersist s.log s.nvm.tailCnt.cur = [] :=
    nvlogEnqPersist_of_index (congrArg (nvlogIndex s.log) h.symm)
  simp only [PersistsAll, hops]
  exact ⟨h.symm, fun c h1 h2 => by omega⟩

/-- The stores of a batch shorter than the log are durable when the call returns, if `clwb`
writes back what it is called for. -/
theorem persistsAll_of_lt {s : PSt} (h0 : 0 < s.logSize) (hsmall : s.logSize < 2 ^ 32)
    (halign : 64 ∣ s.nvm.tailCnt.cur % s.logSize) (hle : s.nvm.tailCnt.cur ≤ s.tailCnt)
    (hlt : s.tailCnt < s.nvm.tailCnt.cur + s.logSize) : PersistsAll Nvm.execIdeal s := by
  have hlen : s.log.tailCnt - s.nvm.tailCnt.cur < s.log.logSize := by
    simp only [PSt.log]
    omega
  have heq : nvlogEnqPersist s.log s.nvm.tailCnt.cur =
      if s.nvm.tailCnt.cur = s.tailCnt then []
      else (flushed s.log s.nvm.tailCnt.cur).map .clwb ++
        [.fence, .storeTail s.tailCnt, .clwbTail] :=
    nvlogEnqPersist_eq h0 hsmall hle hlen
  have hmem : ∀ c, s.nvm.tailCnt.cur ≤ c → c < s.tailCnt →
      nvlogIndex s.log c / cacheLineSize ∈ flushed s.log s.nvm.tailCnt.cur :=
    fun c h1 h2 => mem_flushed halign h1 h2 hlen
  by_cases hempty : s.nvm.tailCnt.cur = s.tailCnt
  · exact persistsAll_of_eq hempty.symm
  · rw [if_neg hempty] at heq
    have hsplit : nvlogEnqPersist s.log s.nvm.tailCnt.cur =
        ((flushed s.log s.nvm.tailCnt.cur).map .clwb ++ [.fence]) ++
          [.storeTail s.tailCnt, .clwbTail] := by
      rw [heq]
      simp
    refine ⟨?_, fun c h1 h2 => ⟨?_, ?_⟩⟩
    · rw [hsplit, List.foldl_append]
      rfl
    · -- the write-back of the line splits the list of write-backs
      obtain ⟨ks, ks', hks⟩ := List.append_of_mem (hmem c h1 h2)
      refine ⟨ks.map .clwb, _, ks'.map .clwb, [.clwbTail], s.tailCnt, ?_, flushes_clwb _, ?_⟩
      · rw [heq, hks]
        simp
      · intro o ho
        rcases List.mem_append.mp ho with ho | ho
        · obtain ⟨k, -, rfl⟩ := List.mem_map.mp ho
          exact id
        · rw [List.mem_singleton] at ho
          subst ho
          exact id
    · rw [hsplit, List.foldl_append]
      exact (execs_flush (flushed s.log s.nvm.tailCnt.cur) s.nvm).2 _ (hmem c h1 h2)

/-- A batch as long as the log is not persisted at all. -/
theorem not_persistsAll_of_full {s : PSt} (h0 : 0 < s.logSize)
    (h : s.tailCnt = s.nvm.tailCnt.cur + s.logSize) : ¬ PersistsAll exec s := by
  have hops : nvlogEnqPersist s.log s.nvm.tailCnt.cur = [] := by
    refine nvlogEnqPersist_of_index ?_
    show s.nvm.tailCnt.cur % s.logSize = s.tailCnt % s.logSize
    rw [h, Nat.add_mod_right]
  intro hp
  have htail := hp.1
  rw [hops] at htail
  have htail : s.nvm.tailCnt.cur = s.tailCnt := htail
  omega

/-! ### The tails of a run -/

/-- The steps of a log, and `nvlog_load` of what a crash has left. -/
inductive FAction
  | event (e : Event)
  | load (D : Nvlog)

/-- The log after a step. -/
def fstep (s : PSt) : FAction → Option PSt
  | .event e => pstep s e
  | .load D =>
    some
      { headCnt := D.headCnt
        tailCnt := D.tailCnt
        logSize := D.logSize
        nvm := ⟨fun i => .mk' fun j => D.buffer (cacheLineSize * i + j), .mk' D.headCnt,
          .mk' D.tailCnt, []⟩
        todo := []
        dirty := false
        written := s.written }

/-- A log is loaded from an image that a crash may leave. -/
def FStepOk (s : PSt) : FAction → Prop
  | .event _ => True
  | .load D => Image s D

/-- The tail, every tail that the memory may hold and every tail that is about to be stored
are multiples of the cache-line size. -/
structure TailAligned (k : ℕ) (s : PSt) : Prop where
  size : s.logSize = 2 ^ k
  small : k < 32
  tail : 64 ∣ s.tailCnt
  cell : ∀ t, t = s.nvm.tailCnt.cur ∨ t ∈ s.nvm.tailCnt.old ∨ t ∈ s.nvm.tailCnt.late → 64 ∣ t
  todo : ∀ t, Op.storeTail t ∈ s.todo → 64 ∣ t

theorem dvd_nvlogEntrySize (n : ℕ) : 64 ∣ nvlogEntrySize n := by
  rw [nvlogEntrySize, alignUintToCacheline]
  exact Nat.dvd_mul_left _ _

theorem dvd_or_index_zero {k t : ℕ} (ht : 64 ∣ t) : 64 ∣ 2 ^ k ∨ t % 2 ^ k = 0 := by
  rcases Nat.le_total 6 k with hk | hk
  · exact .inl (Nat.pow_dvd_pow 2 hk)
  · exact .inr (Nat.mod_eq_zero_of_dvd (Nat.dvd_trans (Nat.pow_dvd_pow 2 hk) ht))

theorem dvd_nvlogMakeRoom {L : Nvlog} {k e : ℕ} (hsize : L.logSize = 2 ^ k) (hk : k < 32)
    (ht : 64 ∣ L.tailCnt) : 64 ∣ (nvlogMakeRoom L e).tailCnt := by
  rw [nvlogMakeRoom]
  split
  · rename_i hw
    have hpow : 2 ^ k < 2 ^ 32 := Nat.pow_lt_pow_right (by decide) hk
    have hn : 64 ∣ 2 ^ k := by
      rcases dvd_or_index_zero (k := k) ht with h | h
      · exact h
      · -- a tail at the start of the ring is not wrapped
        rw [nvlogWraps, nvlogIndex, nvlogIndex, hsize, h] at hw
        omega
    have hmod := (Nat.dvd_mod_iff hn).mpr ht
    have hb : nvlogBogusSize L = 2 ^ k - L.tailCnt % 2 ^ k := by
      rw [nvlogBogusSize, nvlogIndex, hsize, uint, Nat.mod_eq_of_lt (by omega)]
    simp only [hb]
    omega
  · exact ht

theorem TailAligned.init {k : ℕ} {s : PSt} (h : IsPInit k s) : TailAligned k s := by
  obtain ⟨-, ht, hsize, hk, -, hcell, -, htodo, -⟩ := h
  refine ⟨hsize, hk, by rw [ht]; exact Nat.dvd_zero _, ?_, ?_⟩
  · intro t h
    rw [hcell] at h
    have : t = 0 := by simpa [Cell.mk'] using h
    rw [this]
    exact Nat.dvd_zero _
  · rw [htodo]
    intro t h
    cases h

theorem TailAligned.enq {k n : ℕ} {s s' : PSt} (h : TailAligned k s)
    (hs : pstep s (.act (.enq n)) = some s') : TailAligned k s' := by
  simp only [pstep, pstepWith, Option.ite_none_right_eq_some, Option.some_inj] at hs
  obtain ⟨-, rfl⟩ := hs
  have hroom : 64 ∣ (nvlogMakeRoom s.log (nvlogEntrySize n)).tailCnt :=
    dvd_nvlogMakeRoom h.size h.small h.tail
  refine ⟨h.size, h.small, ?_, h.cell, ?_⟩
  · show 64 ∣ (nvlogEnq s.log n).1.tailCnt
    rw [nvlogEnq]
    simp only
    split_ifs
    · exact h.tail
    · exact hroom
    · exact Nat.dvd_add hroom (dvd_nvlogEntrySize n)
  · intro t ht
    obtain ⟨_, -, heq⟩ := List.mem_map.mp ht
    cases heq

theorem storeTail_nvlogEnqPersist {L : Nvlog} {c t : ℕ}
    (h : Op.storeTail t ∈ nvlogEnqPersist L c) : t = L.tailCnt := by
  by_cases heq : uint (nvlogIndex L c) = uint (nvlogIndex L L.tailCnt)
  · simp only [nvlogEnqPersist, if_pos heq] at h
    cases h
  · simp only [nvlogEnqPersist, if_neg heq] at h
    simpa using h

theorem TailAligned.enqPersist {k : ℕ} {s s' : PSt} (h : TailAligned k s)
    (hs : pstep s (.act .enqPersist) = some s') : TailAligned k s' := by
  simp only [pstep, pstepWith, Option.ite_none_right_eq_some, Option.some_inj] at hs
  obtain ⟨-, rfl⟩ := hs
  refine ⟨h.size, h.small, h.tail, h.cell, ?_⟩
  intro t ht
  rcases List.mem_append.mp ht with ht | ht
  · rw [storeTail_nvlogEnqPersist ht]
    exact h.tail
  · simp at ht

theorem TailAligned.op {k : ℕ} {s : PSt} {o : Op} {os : List Op} (h : TailAligned k s)
    (htodo : s.todo = o :: os) : TailAligned k { s with nvm := s.nvm.exec o, todo := os } := by
  refine ⟨h.size, h.small, h.tail, ?_, ?_⟩
  · intro t ht
    have hcur := h.cell s.nvm.tailCnt.cur (.inl rfl)
    cases o with
    | storeTail c =>
      have hc := h.todo c (by rw [htodo]; exact List.mem_cons_self)
      simp only [Nvm.exec, Cell.store, List.mem_append, List.mem_singleton] at ht
      rcases ht with rfl | (ht | rfl) | (ht | rfl)
      · exact hc
      · exact h.cell t (.inr (.inl ht))
      · exact hcur
      · exact h.cell t (.inr (.inr ht))
      · exact hcur
    | store | clwb | fence | storeHead | clwbHead | clwbTail => exact h.cell t ht
  · intro t ht
    exact h.todo t (by rw [htodo]; exact List.mem_cons_of_mem _ ht)

theorem TailAligned.evict {k : ℕ} {s s' : PSt} {p : Place} (h : TailAligned k s)
    (hs : pstep s (.evict p) = some s') : TailAligned k s' := by
  obtain rfl := Option.some_inj.mp hs
  refine ⟨h.size, h.small, h.tail, ?_, h.todo⟩
  intro t ht
  cases p with
  | line | headCnt => exact h.cell t ht
  | tailCnt =>
    simp only [Nvm.evict, Cell.evict, List.not_mem_nil, or_false] at ht
    exact h.cell t (.inl ht)

/-- Every step keeps the tails aligned. -/
theorem TailAligned.step {k : ℕ} {s s' : PSt} {a : FAction} (h : TailAligned k s)
    (ok : FStepOk s a) (hs : fstep s a = some s') : TailAligned k s' := by
  cases a with
  | load D =>
    obtain rfl := Option.some_inj.mp hs
    obtain ⟨hsize, -, htail, -⟩ := ok
    have ht : 64 ∣ D.tailCnt := h.cell _ (htail.imp_right .inl)
    refine ⟨hsize.trans h.size, h.small, ht, ?_, ?_⟩
    · intro t h
      have heq : t = D.tailCnt := by simpa [Cell.mk'] using h
      rw [heq]
      exact ht
    · intro t h
      cases h
  | event e =>
    rw [fstep] at hs
    cases e with
    | evict p => exact h.evict hs
    | act a =>
      cases a with
      | enq n => exact h.enq hs
      | enqPersist => exact h.enqPersist hs
      | fill cnt off w v =>
        simp only [pstep, pstepWith, Option.ite_none_right_eq_some, Option.bind_eq_bind,
          Option.bind_eq_some_iff, Option.some_inj] at hs
        obtain ⟨-, e, -, -, rfl⟩ := hs
        refine ⟨h.size, h.small, h.tail, h.cell, ?_⟩
        intro t ht
        obtain ⟨_, -, heq⟩ := List.mem_map.mp ht
        cases heq
      | reclaim n =>
        simp only [pstep, pstepWith, Option.ite_none_right_eq_some, Option.some_inj] at hs
        obtain ⟨-, rfl⟩ := hs
        refine ⟨h.size, h.small, h.tail, h.cell, ?_⟩
        intro t ht
        simp only [nvlogDeqPersist] at ht
        split at ht <;> simp at ht
      | op =>
        rw [pstep, pstepWith] at hs
        split at hs
        · cases hs
        · rename_i o os htodo
          obtain rfl := Option.some_inj.mp hs
          exact h.op htodo

theorem aligned_of_reach {k : ℕ} {s : PSt} (h : Run.Reach (IsPInit k) fstep FStepOk s) :
    TailAligned k s :=
  h.invariant (fun _ => TailAligned.init) fun _ _ _ hi hok hs => hi.step hok hs

/-- From every state that is reached, with a batch at most as long as the log,
`nvlog_enq_persist` persists the batch if and only if it is empty.  If `clwb` wrote back what
it is called for, it would if and only if the batch is shorter than the log. -/
theorem persistsAll_iff {k : ℕ} {s : PSt} (h : Run.Reach (IsPInit k) fstep FStepOk s)
    (hle : s.nvm.tailCnt.cur ≤ s.tailCnt)
    (hcap : s.tailCnt ≤ s.nvm.tailCnt.cur + s.logSize) :
    (PersistsAll Nvm.exec s ↔ s.tailCnt = s.nvm.tailCnt.cur) ∧
      (PersistsAll Nvm.execIdeal s ↔ s.tailCnt ≠ s.nvm.tailCnt.cur + s.logSize) := by
  have hinv := aligned_of_reach h
  have h0 : 0 < s.logSize := by
    rw [hinv.size]
    exact Nat.two_pow_pos k
  refine ⟨⟨fun hp => ?_, persistsAll_of_eq⟩, ?_, fun hne => ?_⟩
  · by_contra hne
    -- the line at the tail that is stored is in the batch
    obtain ⟨⟨_, o, _, _, _, -, hflush, -⟩, -⟩ := hp.2 s.nvm.tailCnt.cur (le_refl _) (by omega)
    exact not_flushes _ o hflush
  · intro hp heq
    exact not_persistsAll_of_full h0 heq hp
  · have hsmall : s.logSize < 2 ^ 32 := by
      rw [hinv.size]
      exact Nat.pow_lt_pow_right (by decide) hinv.small
    have hcur : 64 ∣ s.nvm.tailCnt.cur := hinv.cell _ (.inl rfl)
    have halign : 64 ∣ s.nvm.tailCnt.cur % s.logSize := by
      rw [hinv.size]
      rcases dvd_or_index_zero (k := k) hcur with hn | h0
      · exact (Nat.dvd_mod_iff hn).mpr hcur
      · rw [h0]
        exact Nat.dvd_zero _
    exact persistsAll_of_lt h0 hsmall halign hle (by omega)

theorem Reach.to_fstep {k : ℕ} {s : PSt} (h : Run.Reach (IsPInit k) pstep Run.any s) :
    Run.Reach (IsPInit k) fstep FStepOk s := by
  induction h with
  | init hs => exact .init hs
  | step _ _ hs ih => exact ih.step (i := .event _) trivial hs

/-- An entry of one line that wraps around the ring, with a filler before it: the two memories
differ. -/
theorem persistsAll_iff_wrap :
    ∃ s, Run.Reach (IsPInit 8) fstep FStepOk s ∧ s.nvm.tailCnt.cur = 192 ∧ s.tailCnt = 320 ∧
      ¬ PersistsAll Nvm.exec s ∧ PersistsAll Nvm.execIdeal s := by
  have hrun : (Run.exec pstep Run.any pfresh256 ((append48 ++ append48 ++ append48 ++
      call (.reclaim 1) 3 ++ call (.enq 48) 50).map .act)).map (fun s => decide
        (s.nvm.tailCnt.cur = 192 ∧ s.tailCnt = 320 ∧ s.logSize = 256)) = some true := by
    decide +kernel
  obtain ⟨s, hs, hd⟩ := Option.map_eq_some_iff.mp hrun
  obtain ⟨h1, h2, h3⟩ := of_decide_eq_true hd
  have hr := Reach.to_fstep (.of_exec (.init isPInit_pfresh256) hs)
  obtain ⟨hcode, hideal⟩ := persistsAll_iff hr (by omega) (by omega)
  exact ⟨s, hr, h1, h2, fun hp => by have := hcode.mp hp; omega, hideal.mpr (by omega)⟩

/-- An entry of one line in a new log is not flushed.  Nor would be, if `clwb` wrote back what
it is called for, the three entries and the filler that fill a log of 256 bytes after a first
entry was persisted and reclaimed. -/
theorem full_batch_not_persisted :
    (¬ ∀ k s, Run.Reach (IsPInit k) fstep FStepOk s → s.nvm.tailCnt.cur ≤ s.tailCnt →
      s.tailCnt ≤ s.nvm.tailCnt.cur + s.logSize → PersistsAll Nvm.exec s) ∧
      ¬ ∀ k s, Run.Reach (IsPInit k) fstep FStepOk s → s.nvm.tailCnt.cur ≤ s.tailCnt →
        s.tailCnt ≤ s.nvm.tailCnt.cur + s.logSize → PersistsAll Nvm.execIdeal s := by
  constructor
  · intro h
    have hrun : (Run.exec pstep Run.any pfresh256 ((call (.enq 48) 28).map .act)).map
        (fun s => decide (s.nvm.tailCnt.cur = 0 ∧ s.tailCnt = 64 ∧ s.logSize = 256)) =
        some true := by
      decide +kernel
    obtain ⟨s, hs, hd⟩ := Option.map_eq_some_iff.mp hrun
    obtain ⟨h1, h2, h3⟩ := of_decide_eq_true hd
    have hr := Reach.to_fstep (.of_exec (.init isPInit_pfresh256) hs)
    obtain ⟨⟨_, o, _, _, _, -, hflush, -⟩, -⟩ :=
      (h 8 s hr (by omega) (by omega)).2 0 (by omega) (by omega)
    exact not_flushes _ o hflush
  · intro h
    have hrun : (Run.exec pstep Run.any pfresh256
        ((append48 ++ call (.reclaim 1) 3 ++ call (.enq 48) 28 ++ call (.enq 48) 28 ++
          call (.enq 48) 50).map .act)).map
          (fun s => decide (s.nvm.tailCnt.cur = 64 ∧ s.tailCnt = 320 ∧ s.logSize = 256)) =
        some true := by
      decide +kernel
    obtain ⟨s, hs, hd⟩ := Option.map_eq_some_iff.mp hrun
    obtain ⟨h1, h2, h3⟩ := of_decide_eq_true hd
    have hr := Reach.to_fstep (.of_exec (.init isPInit_pfresh256) hs)
    exact not_persistsAll_of_full (by omega) (by omega) (h 8 s hr (by omega) (by omega))

end TimeStone.ByteLog
