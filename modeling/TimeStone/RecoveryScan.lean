/-
The loop with which recovery walks over a persistent log (`recovery.c`).

`ckptlog_recovery`, `alloc_replay_array` and `collect_replay_entries` load a log and then
peek at its head and dequeue as long as `head_cnt` and `tail_cnt` differ; the first one stops
at the first entry beyond the checkpoint.  `nvlog_peek_head` moves the head over a filler, and
the loop does not look whether anything is left behind it, so that a filler at the end of the
log makes it use a null pointer.

* `scanLoop_spec` — on a log that does not end in a filler the loop visits the entries before
  the first one at which it stops, in order;
* `nvlogScan_eq` — what a loop that does not stop computes is a fold over the entries that it
  visits, which are those of the log if it does not end in a filler
  (`nvlogEntries_of_endsInEntry`, `nvlogEntries_eq_none`).
-/
import TimeStone.Nvlog
import Mathlib.Data.List.Basic

namespace TimeStone

variable {α σ : Type}

/-- The loop `while (nvlog->head_cnt != nvlog->tail_cnt)` of recovery.  It stops at an entry
for which `stop` holds, and `visit` is what it does with another one, given its counter.  The
result is `none` if bytes that are no header are read or if `NULL` is used as an entry. -/
def scanLoop (stop : NvlogEntry α → Bool) (visit : σ → ℕ × NvlogEntry α → σ) :
    ℕ → σ → Nvlog α → Option (σ × Nvlog α)
  | 0, _, _ => none
  | fuel + 1, st, L =>
    if L.headCnt = L.tailCnt then some (st, L)
    else do
      let (L₁, r) ← nvlogPeekHead L
      let e ← r
      if stop e then some (st, L₁)
      else do
        let (L₂, _) ← nvlogDeq L₁
        scanLoop stop visit fuel (visit st (L₁.headCnt, e)) L₂

/-- `nvlog_load`: the counters are those of the store. -/
def nvlogLoad (L : Nvlog α) : Nvlog α :=
  { L with headCnt := L.storeHeadCnt, tailCnt := L.storeTailCnt }

/-- `nvlog_truncate_tail`. -/
def nvlogTruncateTail (L : Nvlog α) (tailCnt : ℕ) : Nvlog α :=
  { L with tailCnt := tailCnt, storeTailCnt := tailCnt }

/-- `nvlog_truncate_head`. -/
def nvlogTruncateHead (L : Nvlog α) (headCnt : ℕ) : Nvlog α :=
  { L with headCnt := headCnt, storeHeadCnt := headCnt }

/-- The loop over the whole log.  Every iteration moves the head, so that it ends after as
many iterations as there are bytes. -/
def nvlogScan (stop : NvlogEntry α → Bool) (visit : σ → ℕ × NvlogEntry α → σ) (st : σ)
    (L : Nvlog α) : Option (σ × Nvlog α) :=
  scanLoop stop visit (L.tailCnt - L.headCnt + 1) st L

/-- The items that are no fillers. -/
def realEntries (items : List (ℕ × NvlogEntry α)) : List (ℕ × NvlogEntry α) :=
  items.filter fun p => p.2.type = .entry

/-- The last item is an entry. -/
def EndsInEntry (items : List (ℕ × NvlogEntry α)) : Prop :=
  ∀ p ∈ items.getLast?, p.2.type = .entry

theorem realEntries_append (xs ys : List (ℕ × NvlogEntry α)) :
    realEntries (xs ++ ys) = realEntries xs ++ realEntries ys :=
  List.filter_append ..

theorem realEntries_of_bogus {xs : List (ℕ × NvlogEntry α)}
    (h : ∀ p ∈ xs, p.2.type = .bogus) : realEntries xs = [] := by
  refine List.filter_eq_nil_iff.mpr fun p hp => ?_
  rw [h p hp]
  decide

variable {L : Nvlog α} {items : List (ℕ × NvlogEntry α)}

theorem EndsInEntry.of_append {xs ys : List (ℕ × NvlogEntry α)} (h : EndsInEntry (xs ++ ys)) :
    EndsInEntry ys := by
  intro p hp
  exact h p (by simp [List.getLast?_append, Option.mem_def.mp hp])

/-- A log with items that ends in an entry has one behind its leading filler. -/
theorem EndsInEntry.skipBogus_ne_nil (h : EndsInEntry items) (hne : items ≠ []) :
    skipBogus items ≠ [] := by
  intro hnil
  obtain ⟨pre, hpre, hbogus⟩ := skipBogus_split items
  rw [hnil, List.append_nil] at hpre
  obtain ⟨p, hp⟩ := Option.ne_none_iff_exists'.mp (mt List.getLast?_eq_none_iff.mp hne)
  have hentry := h p hp
  have hp' := List.mem_of_getLast? hp
  rw [hpre] at hp'
  rw [hbogus p hp'] at hentry
  cases hentry

/-- What the loop does with a log that decodes as `items`: it visits the entries of the items
`seen` and stops in front of the items `left`, at the tail or at an entry for which `stop`
holds. -/
structure ScanResult (stop : NvlogEntry α → Bool) (visit : σ → ℕ × NvlogEntry α → σ) (st : σ)
    (L : Nvlog α) (items seen left : List (ℕ × NvlogEntry α)) (d : ℕ) (st' : σ) : Prop where
  items : items = seen ++ left
  state : st' = (realEntries seen).foldl visit st
  goes : ∀ p ∈ realEntries seen, stop p.2 = false
  walk : Walk L d left L.tailCnt
  ends : left = [] ∨ ∃ e rest, left = (d, e) :: rest ∧ e.type = .entry ∧ stop e = true

/-- What the loop finds at the head of a log that has items left and does not end in a filler:
behind the fillers `pre` the entry `e` at `y`, and then a shorter log of the same kind. -/
structure AtHead (L : Nvlog α) (items pre : List (ℕ × NvlogEntry α)) (y : ℕ) (e : NvlogEntry α)
    (rest : List (ℕ × NvlogEntry α)) : Prop where
  split : items = pre ++ (y, e) :: rest
  bogus : ∀ p ∈ pre, p.2.type = .bogus
  type : e.type = .entry
  peek : nvlogPeekHead L = some (L.withHead y, some e)
  deq : nvlogDeq (L.withHead y) = some (L.withHead (y + e.size), some e)
  walk : Walk L y ((y, e) :: rest) L.tailCnt
  walkRest : Walk L (y + e.size) rest L.tailCnt
  restOk : ∀ p ∈ rest, BogusOk L p
  restEnds : EndsInEntry rest
  shorter : L.tailCnt - (y + e.size) < L.tailCnt - L.headCnt

theorem EndsInEntry.atHead {L : Nvlog α} {items : List (ℕ × NvlogEntry α)}
    (hend : EndsInEntry items) (hw : Walk L L.headCnt items L.tailCnt)
    (hb : ∀ p ∈ items, BogusOk L p) (hne : L.headCnt ≠ L.tailCnt) :
    ∃ pre y e rest, AtHead L items pre y e rest := by
  have hnil : items ≠ [] := by
    rintro rfl
    exact hne hw
  obtain ⟨⟨y, e⟩, rest, hes⟩ := List.exists_cons_of_ne_nil (hend.skipBogus_ne_nil hnil)
  obtain ⟨c, hc, hwc⟩ := hw.skipBogus
  obtain ⟨pre, hpre, hbogus⟩ := skipBogus_split items
  rw [hes] at hwc hpre
  obtain rfl : y = c := hwc.1
  have het := type_of_skipBogus hw hb hes
  have hlen := hwc.mem List.mem_cons_self
  refine ⟨pre, y, e, rest, hpre, hbogus, het, nvlogPeekHead_cons hw hes, nvlogDeq_walk hwc het,
    hwc, hwc.2.2.2.2, fun p hp => ?_, ?_, by omega⟩
  · exact hb p (by rw [hpre]; exact List.mem_append_right _ (List.mem_cons_of_mem _ hp))
  · rw [hpre] at hend
    have hcons : EndsInEntry ([(y, e)] ++ rest) := hend.of_append
    exact hcons.of_append

/-- The loop on a log that does not end in a filler. -/
theorem scanLoop_spec (stop : NvlogEntry α → Bool) (visit : σ → ℕ × NvlogEntry α → σ) :
    ∀ (fuel : ℕ) (st : σ) (L : Nvlog α) (items : List (ℕ × NvlogEntry α)),
      Walk L L.headCnt items L.tailCnt → (∀ p ∈ items, BogusOk L p) → EndsInEntry items →
      L.tailCnt - L.headCnt < fuel →
      ∃ seen left d st', scanLoop stop visit fuel st L = some (st', L.withHead d) ∧
        ScanResult stop visit st L items seen left d st' := by
  intro fuel
  induction fuel with
  | zero =>
    intro st L items _ _ _ hf
    omega
  | succ fuel ih =>
    intro st L items hw hb hend hf
    by_cases heq : L.headCnt = L.tailCnt
    · have hnil : items = [] := by
        have := hw.length_le
        rw [heq, Nat.sub_self] at this
        exact List.eq_nil_of_length_eq_zero (by omega)
      subst hnil
      refine ⟨[], [], L.headCnt, st, by rw [scanLoop, if_pos heq]; rfl, rfl, rfl, ?_, ?_, .inl rfl⟩
      · intro p hp
        cases hp
      · exact heq
    · obtain ⟨pre, y, e, rest, ha⟩ := hend.atHead hw hb heq
      rw [scanLoop, if_neg heq, ha.peek]
      simp only [Option.bind_eq_bind, Option.bind_some]
      split
      · -- the entry is beyond the checkpoint
        rename_i hstop
        refine ⟨pre, (y, e) :: rest, y, st, rfl, ha.split, ?_, ?_, ha.walk, ?_⟩
        · rw [realEntries_of_bogus ha.bogus]
          rfl
        · rw [realEntries_of_bogus ha.bogus]
          intro p hp
          cases hp
        · exact .inr ⟨e, rest, rfl, ha.type, hstop⟩
      · -- visit the entry and go on behind it
        rename_i hstop
        rw [ha.deq]
        have hshorter := ha.shorter
        obtain ⟨seen, left, d, st', h1, h2⟩ := ih (visit st (y, e)) (L.withHead (y + e.size))
          rest ha.walkRest ha.restOk ha.restEnds (by
            simp only [tailCnt_withHead, headCnt_withHead]
            omega)
        have hreal : realEntries (pre ++ (y, e) :: seen) = (y, e) :: realEntries seen := by
          rw [realEntries_append, realEntries_of_bogus ha.bogus, List.nil_append, realEntries,
            List.filter_cons_of_pos (by simpa using ha.type)]
          rfl
        refine ⟨pre ++ (y, e) :: seen, left, d, st', h1, ?_, ?_, ?_, h2.walk, h2.ends⟩
        · rw [ha.split, h2.items]
          simp
        · rw [hreal, h2.state]
          rfl
        · rw [hreal]
          intro p hp
          rcases List.mem_cons.mp hp with rfl | hp
          · simpa using hstop
          · exact h2.goes p hp

/-! ### Loops that do not stop -/

/-- A map between the counters of two loops that commutes with their bodies. -/
theorem scanLoop_map {τ : Type} (f : σ → τ) (stop : NvlogEntry α → Bool)
    {visit : σ → ℕ × NvlogEntry α → σ} {visit' : τ → ℕ × NvlogEntry α → τ}
    (hf : ∀ st p, f (visit st p) = visit' (f st) p) : ∀ (fuel : ℕ) (st : σ) (L : Nvlog α),
    scanLoop stop visit' fuel (f st) L =
      (scanLoop stop visit fuel st L).map fun r => (f r.1, r.2) := by
  intro fuel
  induction fuel with
  | zero =>
    intro st L
    rfl
  | succ fuel ih =>
    intro st L
    rw [scanLoop, scanLoop]
    split
    · rfl
    rcases nvlogPeekHead L with _ | ⟨L₁, _ | e⟩
    · rfl
    · rfl
    simp only [Option.bind_eq_bind, Option.bind_some]
    split
    · rfl
    rcases nvlogDeq L₁ with _ | ⟨L₂, r⟩
    · rfl
    · simp only [Option.bind_some]
      rw [← hf, ih]

/-- The entries that a loop over the whole log visits, and the log behind it. -/
def nvlogEntries (L : Nvlog α) : Option (List (ℕ × NvlogEntry α) × Nvlog α) :=
  nvlogScan (fun _ => false) (fun es p => es ++ [p]) [] L

theorem nvlogScan_eq (visit : σ → ℕ × NvlogEntry α → σ) (st : σ) (L : Nvlog α) :
    nvlogScan (fun _ => false) visit st L =
      (nvlogEntries L).map fun r => (r.1.foldl visit st, r.2) := by
  refine scanLoop_map (fun es : List (ℕ × NvlogEntry α) => es.foldl visit st) _ ?_ _ [] L
  intro es p
  rw [List.foldl_append]
  rfl

theorem nvlogEntries_of_endsInEntry (hw : Walk L L.headCnt items L.tailCnt)
    (hb : ∀ p ∈ items, BogusOk L p) (hend : EndsInEntry items) :
    nvlogEntries L = some (realEntries items, L.withHead L.tailCnt) := by
  obtain ⟨seen, left, d, st, hscan, hres⟩ := scanLoop_spec (fun _ => false)
    (fun es p => es ++ [p]) _ [] L items hw hb hend (Nat.lt_succ_self _)
  have hleft : left = [] := by
    rcases hres.ends with h | ⟨e, rest, -, -, hstop⟩
    · exact h
    · cases hstop
  subst hleft
  have hitems : items = seen := by rw [hres.items, List.append_nil]
  have hd : d = L.tailCnt := hres.walk
  rw [nvlogEntries, nvlogScan, hscan, hres.state, List.foldl_append_eq_append, List.nil_append,
    ← List.flatMap_def, List.flatMap_singleton', hitems, hd]

/-- A filler at the end of a log is still there behind the first entry. -/
theorem EndsInEntry.of_rest {pre rest : List (ℕ × NvlogEntry α)} {p : ℕ × NvlogEntry α}
    (hp : p.2.type = .entry) (h : EndsInEntry rest) : EndsInEntry (pre ++ p :: rest) := by
  intro q hq
  cases rest with
  | nil =>
    rw [List.getLast?_concat, Option.mem_some_iff] at hq
    exact hq ▸ hp
  | cons r rest =>
    refine h q ?_
    rw [List.getLast?_append, List.getLast?_cons_cons] at hq
    rwa [Option.mem_def, List.getLast?_eq_some_getLast (List.cons_ne_nil _ _), Option.some_or,
      ← List.getLast?_eq_some_getLast] at hq

/-- The loop reads `NULL` behind a filler at the end of the log. -/
theorem scanLoop_eq_none (visit : σ → ℕ × NvlogEntry α → σ) : ∀ (fuel : ℕ) (st : σ)
    (L : Nvlog α) (items : List (ℕ × NvlogEntry α)), Walk L L.headCnt items L.tailCnt →
    (∀ p ∈ items, BogusOk L p) → ¬ EndsInEntry items →
    scanLoop (fun _ => false) visit fuel st L = none := by
  intro fuel
  induction fuel with
  | zero =>
    intro st L items _ _ _
    rfl
  | succ fuel ih =>
    intro st L items hw hb hend
    have hne : L.headCnt ≠ L.tailCnt := by
      intro heq
      have hlen := hw.length_le
      rw [heq, Nat.sub_self] at hlen
      obtain rfl := List.eq_nil_of_length_eq_zero (Nat.le_zero.mp hlen)
      exact hend nofun
    rw [scanLoop, if_neg hne]
    cases hes : skipBogus items with
    | nil =>
      rw [nvlogPeekHead_nil hw hes]
      rfl
    | cons q rest =>
      obtain ⟨y, e⟩ := q
      obtain ⟨c, hc, hwc⟩ := hw.skipBogus
      obtain ⟨pre, hpre, -⟩ := skipBogus_split items
      rw [hes] at hwc hpre
      obtain rfl : y = c := hwc.1
      have het := type_of_skipBogus hw hb hes
      rw [nvlogPeekHead_cons hw hes]
      simp only [Option.bind_eq_bind, Option.bind_some, Bool.false_eq_true, if_false]
      rw [nvlogDeq_walk hwc het]
      refine ih _ (L.withHead (y + e.size)) rest hwc.2.2.2.2 ?_ ?_
      · intro p hp
        exact hb p (by rw [hpre]; exact List.mem_append_right _ (List.mem_cons_of_mem _ hp))
      · rw [hpre] at hend
        exact fun h => hend (.of_rest het h)

theorem nvlogEntries_eq_none (hw : Walk L L.headCnt items L.tailCnt)
    (hb : ∀ p ∈ items, BogusOk L p) (hend : ¬ EndsInEntry items) : nvlogEntries L = none :=
  scanLoop_eq_none _ _ [] L items hw hb hend

end TimeStone
