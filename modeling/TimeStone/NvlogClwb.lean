/-
The log when `clwb` writes back nothing of it.

`clwb` of `arch.h` is called for the lines of a batch and for the counters, but what it writes
back is the stack slot of its parameter.  The log then depends on the cache: it is as good as
on the memory that it is written for if, whenever a fence comes, the cache has written back
by itself everything that `clwb` was called for (`FenceOk`).

* `Nvm.Within` — the memory holds at most what it may hold where `clwb` works;
* `Follows.step` — a step on the one memory is followed by a step on the other;
* `decodes_of_reach` — in every run that keeps to `PStepOk`, a crash leaves a log that decodes
  as entries that were enqueued, with their contents;
* `tail_before_entry` — otherwise the tail may reach the memory before its first entry.
-/
import TimeStone.NvlogCrash

namespace TimeStone.ByteLog

open Bytes Pmem

/-- The memory `m` has the contents of `d` in the cache, and behind it at most what `d` may
have there. -/
structure Nvm.Within (m d : Nvm) : Prop where
  line : ∀ i, (m.line i).Within (Place.line i ∈ m.asked) (d.line i)
  headCnt : m.headCnt.Within (Place.headCnt ∈ m.asked) d.headCnt
  tailCnt : m.tailCnt.Within (Place.tailCnt ∈ m.asked) d.tailCnt

variable {m d : Nvm} {s s' : PSt} {D : Nvlog}

theorem Nvm.Within.bytes (h : m.Within d) : m.bytes = d.bytes := by
  funext a
  rw [Nvm.bytes, Nvm.bytes, (h.line _).cur]

/-- A call of `clwb` for one place: the other places are as before. -/
theorem Nvm.Within.asks (h : m.Within d) (p : Place) :
    Nvm.Within { m with asked := p :: m.asked } d where
  line := fun i => (h.line i).asks (List.mem_cons_of_mem p)
  headCnt := h.headCnt.asks (List.mem_cons_of_mem p)
  tailCnt := h.tailCnt.asks (List.mem_cons_of_mem p)

/-- An instruction keeps the comparison.  For a fence the cache must be done with everything
that `clwb` was called for. -/
theorem Nvm.Within.exec (h : m.Within d) {o : Op}
    (hf : o = .fence → ∀ p ∈ m.asked, m.InMemory p) : (m.exec o).Within (d.execIdeal o) := by
  cases o with
  | store st =>
    refine ⟨fun i => ?_, h.headCnt, h.tailCnt⟩
    simp only [Nvm.exec, Nvm.execIdeal, Nvm.storeByte]
    split
    · rw [(h.line i).cur]
      exact (h.line i).store _
    · exact h.line i
  | clwb k =>
    have ha := h.asks (.line k)
    refine ⟨fun i => ?_, ha.headCnt, ha.tailCnt⟩
    simp only [Nvm.exec, Nvm.execIdeal]
    split
    · rename_i hk
      exact (h.line i).clwb (hk ▸ List.mem_cons_self)
    · exact ha.line i
  | fence =>
    have hf := hf rfl
    exact ⟨fun i => (h.line i).fence (hf _), h.headCnt.fence (hf _), h.tailCnt.fence (hf _)⟩
  | storeHead c => exact ⟨h.line, h.headCnt.store c, h.tailCnt⟩
  | clwbHead =>
    have ha := h.asks .headCnt
    exact ⟨ha.line, h.headCnt.clwb List.mem_cons_self, ha.tailCnt⟩
  | storeTail c => exact ⟨h.line, h.headCnt, h.tailCnt.store c⟩
  | clwbTail =>
    have ha := h.asks .tailCnt
    exact ⟨ha.line, ha.headCnt, h.tailCnt.clwb List.mem_cons_self⟩

/-- What the cache writes back by itself only narrows what the memory may hold. -/
theorem Nvm.Within.evict (h : m.Within d) (p : Place) : (m.evict p).Within d := by
  cases p with
  | line k =>
    refine ⟨fun i => ?_, h.headCnt, h.tailCnt⟩
    simp only [Nvm.evict]
    split
    · exact (h.line i).evict
    · exact h.line i
  | headCnt => exact ⟨h.line, h.headCnt.evict, h.tailCnt⟩
  | tailCnt => exact ⟨h.line, h.headCnt, h.tailCnt.evict⟩

/-- What a crash leaves, it may leave of the other memory. -/
theorem Nvm.Within.image (h : s.nvm.Within d) (hD : Image s D) :
    Image { s with nvm := d } D := by
  obtain ⟨hsize, hhead, htail, hline⟩ := hD
  refine ⟨hsize, h.headCnt.durable hhead, h.tailCnt.durable htail, fun i => ?_⟩
  obtain ⟨c, hc, hb⟩ := hline i
  exact ⟨c, (h.line i).durable hc, hb⟩

/-! ### The two machines -/

/-- A call looks at the memory through the cache only, and leaves it to its instructions. -/
theorem pstepWith_of_within (h : s.nvm.Within d) {exec : Nvm → Op → Nvm}
    (exec' : Nvm → Op → Nvm) {a : PAction} (ha : a ≠ .op) (hs : pstepWith exec s a = some s') :
    s'.nvm = s.nvm ∧ pstepWith exec' { s with nvm := d } a = some { s' with nvm := d } := by
  have hlog : PSt.log { s with nvm := d } = s.log := by
    simp only [PSt.log, h.bytes]
  have hhead := h.headCnt.cur
  have htail := h.tailCnt.cur
  cases a with
  | enq n =>
    simp only [pstepWith, Option.ite_none_right_eq_some, Option.some_inj] at hs
    obtain ⟨hidle, rfl⟩ := hs
    refine ⟨rfl, ?_⟩
    simp only [pstepWith, hlog]
    rw [if_pos hidle]
  | fill c off w v =>
    simp only [pstepWith, Option.bind_eq_bind, Option.ite_none_right_eq_some,
      Option.bind_eq_some_iff, Option.some_inj] at hs
    obtain ⟨hidle, e, he, hm, rfl⟩ := hs
    refine ⟨rfl, ?_⟩
    simp only [pstepWith, Option.bind_eq_bind]
    rw [if_pos hidle, he, Option.bind_some, if_pos (htail ▸ hm)]
  | enqPersist =>
    simp only [pstepWith, Option.ite_none_right_eq_some, Option.some_inj] at hs
    obtain ⟨hidle, rfl⟩ := hs
    refine ⟨rfl, ?_⟩
    simp only [pstepWith, hlog, ← htail]
    rw [if_pos hidle]
  | reclaim k =>
    simp only [pstepWith, Option.ite_none_right_eq_some, Option.some_inj] at hs
    obtain ⟨hidle, rfl⟩ := hs
    refine ⟨rfl, ?_⟩
    simp only [pstepWith, hlog, ← hhead]
    rw [if_pos hidle]
  | op => exact absurd rfl ha

/-- There is a state of the memory that the log is written for, which `s` keeps within and
which keeps the invariant. -/
def Follows (s : PSt) : Prop := ∃ d, s.nvm.Within d ∧ PInv { s with nvm := d }

theorem Follows.init {k : ℕ} (h : IsPInit k s) : Follows s := by
  obtain ⟨h1, h2, h3, h4, h5, h6, h7, h8⟩ := h
  -- the buffer is not initialised: the lines may hold anything, also after the next fence
  let d : Nvm :=
    { s.nvm with line := fun i => ⟨(s.nvm.line i).cur, (s.nvm.line i).old, (s.nvm.line i).old⟩ }
  refine ⟨d, ⟨fun i => ⟨rfl, fun _ ha => ha, fun _ _ ha => ha⟩, ?_, ?_⟩, PInv.init (k := k) ?_⟩
  · exact Cell.Within.refl _ (h5 ▸ ⟨rfl, rfl⟩)
  · exact Cell.Within.refl _ (h6 ▸ ⟨rfl, rfl⟩)
  · exact ⟨h1, h2, h3, h4, h5, h6, h7, h8⟩

/-- A step is followed by the same step on the other memory, or by none. -/
theorem Follows.step {e : Event} (h : Follows s) (ok : PStepOk s e) (hs : pstep s e = some s') :
    Follows s' := by
  obtain ⟨d, hw, hinv⟩ := h
  cases e with
  | evict p =>
    obtain rfl := Option.some_inj.mp hs
    exact ⟨d, hw.evict p, hinv⟩
  | act a =>
    rw [pstep] at hs
    -- an instruction acts on both memories, a call only on what the cache shows
    by_cases ha : a = .op
    · subst ha
      rw [pstepWith] at hs
      split at hs
      · contradiction
      · rename_i o os htodo
        obtain rfl := Option.some_inj.mp hs
        have hok : FenceOk s := ok
        refine ⟨d.execIdeal o, hw.exec fun ho => hok ?_, ?_⟩
        · rw [htodo, ho]
          rfl
        · refine hinv.step (a := .op) trivial ?_
          simp only [pstepIdeal, pstepWith, htodo]
    · have hok : CallOk { s with nvm := d } a := by
        have hok : CallOk s a := by
          cases a with
          | op => exact absurd rfl ha
          | enq | fill | enqPersist | reclaim => exact ok
        cases a with
        | enq n =>
          rw [CallOk, PSt.log, ← hw.bytes]
          exact hok
        | enqPersist =>
          rw [CallOk, ← hw.tailCnt.cur]
          exact hok
        | fill | reclaim | op => trivial
      obtain ⟨hnvm, hs⟩ := pstepWith_of_within hw Nvm.execIdeal ha hs
      exact ⟨d, hnvm ▸ hw, hinv.step hok hs⟩

theorem follows_of_reach {k : ℕ} (h : Run.Reach (IsPInit k) pstep PStepOk s) : Follows s :=
  h.invariant (fun _ => Follows.init) fun _ _ _ hi ok hs => hi.step ok hs

/-- Behind its instructions a call leaves the log idle. -/
theorem Follows.idle (h : Follows s) (ht : s.todo.isEmpty) :
    ∃ d ds new pend, s.nvm.Within d ∧ Idle { s with nvm := d } ds new pend := by
  obtain ⟨d, hw, hinv⟩ := h
  obtain ⟨ds, new, pend, hi⟩ := hinv.idle ht
  exact ⟨d, ds, new, pend, hw, hi⟩

/-- In every run that keeps to `PStepOk`, whatever a crash leaves at any point decodes as
fillers and entries that were enqueued, with the bytes stored to them. -/
theorem decodes_of_reach {k : ℕ} (h : Run.Reach (IsPInit k) pstep PStepOk s) (hD : Image s D) :
    Decodes s.written D := by
  obtain ⟨d, hw, hinv⟩ := follows_of_reach h
  exact hinv.allSafe.decodes (hw.image hD)

/-- An entry of one line, enqueued and persisted, where the cache writes back the line and
the tail in time. -/
def evict48 (line : ℕ) : List Event :=
  (call (.enq 48) 28).map .act ++ [.act .enqPersist, .act .op, .evict (.line line), .act .op,
    .act .op, .act .op, .evict .tailCnt, .act .op]

/-- Three entries, the first one taken off, and a fourth one behind a filler, up to the fence
behind the store of the tail. -/
def evictUp : List Event :=
  evict48 0 ++ evict48 1 ++ evict48 2 ++
    [.act (.reclaim 1), .act .op, .act .op, .evict .headCnt, .act .op] ++
    (call (.enq 48) 50).map .act ++ [.act .enqPersist, .act .op, .act .op, .evict (.line 3),
      .evict (.line 0), .act .op, .act .op, .act .op]

/-- A crash between the store of the tail and the fence behind it may leave the tail that was
there before. -/
theorem decodes_of_reach_old_tail :
    ∃ s D, Run.Reach (IsPInit 8) pstep PStepOk s ∧ Image s D ∧ s.tailCnt = 320 ∧
      D.tailCnt = 192 ∧ Decodes s.written D := by
  have hrun : (Run.exec pstep PStepOk pfresh256 evictUp).map
      (fun s => decide (s.tailCnt = 320 ∧ s.nvm.tailCnt.cur = 320 ∧ 192 ∈ s.nvm.tailCnt.old)) =
      some true := by
    decide +kernel
  obtain ⟨s, hr, ht, -, hold⟩ : ∃ s, Run.Reach (IsPInit 8) pstep PStepOk s ∧ _ :=
    Run.Reach.exists_of_exec (.init isPInit_pfresh256) hrun
  have hD : Image s { s.flushedImage with tailCnt := 192 } := by
    obtain ⟨h1, h2, -, h4⟩ := image_flushedImage s
    exact ⟨h1, h2, .inr hold, h4⟩
  exact ⟨s, _, hr, hD, ht, rfl, decodes_of_reach hr hD⟩

/-- One entry is enqueued, filled and persisted, and of all that only the tail reaches the
memory: the log that is loaded has an entry whose line holds what it held before. -/
theorem tail_before_entry :
    ¬ ∀ k s D, Run.Reach (IsPInit k) pstep Run.any s → Image s D → Decodes s.written D := by
  intro h
  have hrun : (Run.exec pstep Run.any pfresh256
      ((call (.enq 48) 28 ++ call (.fill 0 0 8 7) 8 ++ call .enqPersist 5).map .act)).map
      (fun s => decide (s.todo = [] ∧ s.nvm.headCnt.cur = 0 ∧ s.nvm.tailCnt.cur = 64 ∧
        (s.nvm.line 0).old.head?.map (fun c => load c 8 4) = some 0)) =
      some true := by
    decide +kernel
  obtain ⟨s, hs, hd⟩ := Option.map_eq_some_iff.mp hrun
  obtain ⟨-, hh, ht, hz⟩ := of_decide_eq_true hd
  obtain ⟨c, hc, hz⟩ := Option.map_eq_some_iff.mp hz
  -- the first line as it was before, and everything else as it is now
  let D : Nvlog :=
    { s.flushedImage with
      buffer := fun a =>
        if a / cacheLineSize = 0 then c (a % cacheLineSize) else s.nvm.bytes a }
  have hline : ∀ j < cacheLineSize, D.buffer j = c j := by
    intro j hj
    refine (if_pos (Nat.div_eq_of_lt hj)).trans ?_
    rw [Nat.mod_eq_of_lt hj]
  have hD : Image s D := by
    obtain ⟨h1, h2, h3, h4⟩ := image_flushedImage s
    refine ⟨h1, h2, h3, fun i => ?_⟩
    by_cases hi : i = 0
    · subst hi
      refine ⟨c, .inr (List.mem_of_head? hc), fun j hj => ?_⟩
      rw [Nat.mul_zero, Nat.zero_add]
      exact hline j hj
    · obtain ⟨c', hc', hb⟩ := h4 i
      refine ⟨c', hc', fun j hj => (if_neg ?_).trans (hb j hj)⟩
      simp only [cacheLineSize] at hj ⊢
      omega
  obtain ⟨items, hw, -⟩ := h 8 s D (.of_exec (.init isPInit_pfresh256) hs) hD
  have hhead : D.headCnt = 0 := hh
  have htail : D.tailCnt = 64 := ht
  rw [Walk, hhead, htail] at hw
  cases items with
  | nil =>
    have heq : 0 = 64 := hw
    omega
  | cons p items =>
    obtain ⟨-, hat, hpos, -⟩ := hw
    rw [← Option.some_inj.mp hat, Nat.zero_mod] at hpos
    have hsize : load D.buffer 8 4 = load c 8 4 :=
      load_congr fun j _ hj => hline j (hj.trans (by decide))
    exact absurd (hsize.trans hz) (Nat.ne_of_gt hpos)

end TimeStone.ByteLog
