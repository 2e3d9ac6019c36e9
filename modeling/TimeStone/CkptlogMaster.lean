/-
The current master never dangles.

`Inv` splits every checkpoint log at its boundary `prevHeadCnt` into the entries
that a writeback has visited and the rest, and says that the current master of an
object that is not freed is the original one or an entry of the rest.  Each loop
of `ckptlog_reclaim_x` is described once by the effect it has on that split:

* `reclaimLoop_spec` — the first loop drops exactly the visited entries;
* `writebackLoop_spec` — the second loop visits a prefix of the rest, and every
  entry it visits stops being a current master.

Enqueueing appends to the rest (`inv_enqX`), provided that no filler starts at
the boundary (`FillerOk`).  The run results are `np_cur_act_live` and, for the
unrestricted runs, `np_cur_act_dangles`.
-/
import TimeStone.Ckptlog

namespace TimeStone.Ckptlog

variable {α : Type*}

/-- A filler ends the ring, and an entry has been filled by its caller. -/
structure ItemOk (L : Nvlog (CkptEntry α)) (p : ℕ × NvlogEntry (CkptEntry α)) : Prop where
  bogus : BogusOk L p
  entry : p.2.type = .entry →
    ∃ ck, p.2.obj = some ck ∧ (ck.tombstone = false → ∃ o, ck.obj = some o)

/-- The log splits at its boundary into the visited entries and the rest. -/
structure LogInv (L : Nvlog (CkptEntry α))
    (visited rest : List (ℕ × NvlogEntry (CkptEntry α))) : Prop where
  size : L.logSize = ckptlogSize
  walkVisited : Walk L L.headCnt visited L.prevHeadCnt
  walkRest : Walk L L.prevHeadCnt rest L.tailCnt
  cap : L.tailCnt ≤ L.headCnt + L.logSize
  item : ∀ p ∈ visited ++ rest, ItemOk L p
  restHead : ∀ p ∈ rest.head?, p.2.type = .entry

/-- The current master of every object that is not freed is its original master
or an entry in the rest of some log. -/
def CurInv (s : State α) (rest : ℕ → List (ℕ × NvlogEntry (CkptEntry α))) : Prop :=
  ∀ o, s.freed o = false → ∀ p, s.npCurAct o = some p →
    ∃ x e ck, (x, e) ∈ rest p.log ∧ p.index = x % ckptlogSize ∧ e.type = .entry ∧
      e.obj = some ck ∧ ck.npOrgAct = o ∧ ck.tombstone = false

/-- The invariant of the checkpoint logs. -/
def Inv (s : State α) : Prop :=
  ∃ visited rest : ℕ → List (ℕ × NvlogEntry (CkptEntry α)),
    (∀ l, LogInv (s.logs l) (visited l) (rest l)) ∧ CurInv s rest

/-! ### The loops of `ckptlog_reclaim_x` -/

/-- What a loop over the log `l` leaves alone. -/
structure Frame (s s' : State α) (l : ℕ) : Prop where
  logs : ∀ k, k ≠ l → s'.logs k = s.logs k
  freed : s'.freed = s.freed

/-- The first loop drops exactly the visited entries: it stops at the boundary. -/
theorem reclaimLoop_spec {l : ℕ} {rest : List (ℕ × NvlogEntry (CkptEntry α))}
    {L : Nvlog (CkptEntry α)} (hr : Walk L L.prevHeadCnt rest L.tailCnt)
    (hh : ∀ p ∈ rest.head?, p.2.type = .entry) :
    ∀ (fuel c : ℕ) (visited : List (ℕ × NvlogEntry (CkptEntry α))) (s : State α),
      s.logs l = L.withHead c → Walk L c visited L.prevHeadCnt →
      (∀ p ∈ visited ++ rest, ItemOk L p) → visited.length < fuel →
      ∃ s' r, reclaimLoop l fuel s = some (s', r) ∧ Frame s s' l ∧
        s'.logs l = L.withHead L.prevHeadCnt ∧ s'.npCurAct = s.npCurAct := by
  intro fuel
  induction fuel with
  | zero =>
    intro c visited s _ _ _ hf
    omega
  | succ fuel ih =>
    intro c visited s hL hv hi hf
    have hw : Walk (s.logs l) (s.logs l).headCnt (visited ++ rest) (s.logs l).tailCnt := by
      simp only [hL, headCnt_withHead, tailCnt_withHead, walk_withHead]
      exact hv.append hr
    have hskip : skipBogus (visited ++ rest) = skipBogus visited ++ rest :=
      skipBogus_append hh
    cases hvs : skipBogus visited with
    | nil =>
      -- nothing is left to drop: the peek lands on the boundary
      rw [hvs, List.nil_append] at hskip
      cases rest with
      | nil =>
        have ht : L.prevHeadCnt = L.tailCnt := hr
        refine ⟨s.setLog l (L.withHead L.tailCnt), none, ?_, ⟨?_, rfl⟩, ?_, rfl⟩
        · rw [reclaimLoop, nvlogPeekHead_nil hw hskip, hL]
          rfl
        · exact fun k hk => logs_setLog_ne s hk _
        · rw [logs_setLog, ht]
      | cons q rest =>
        have hy : q.1 = L.prevHeadCnt := hr.1
        refine ⟨s.setLog l (L.withHead q.1), some q.2, ?_, ⟨?_, rfl⟩, ?_, rfl⟩
        · rw [reclaimLoop, nvlogPeekHead_cons hw hskip, hL]
          simp [hy]
        · exact fun k hk => logs_setLog_ne s hk _
        · rw [logs_setLog, hy]
    | cons q vs =>
      obtain ⟨y, e⟩ := q
      rw [hvs] at hskip
      obtain ⟨c', -, hv'⟩ := hv.skipBogus
      rw [hvs] at hv'
      have hcy : y = c' := hv'.1
      subst hcy
      have het : e.type = .entry := type_of_skipBogus hv
        (fun p hp => (hi p (List.mem_append_left _ hp)).bogus) hvs
      have hmem : (y, e) ∈ visited := mem_of_mem_skipBogus (by rw [hvs]; simp)
      obtain ⟨ck, (hck : e.obj = some ck), -⟩ :=
        (hi _ (List.mem_append_left _ hmem)).entry het
      have hne : y ≠ L.prevHeadCnt := by
        have := hv'.mem List.mem_cons_self
        omega
      have hdeq := nvlogDeq_walk (hv'.append hr) het
      obtain ⟨-, -, -, -, hrest⟩ := hv'
      have hlen : vs.length < fuel := by
        have := skipBogus_length visited
        rw [hvs, List.length_cons] at this
        omega
      obtain ⟨s', r, h1, h2, h3, h4⟩ := ih (y + e.size) vs
        { s.setLog l (L.withHead (y + e.size)) with
          freeSet := if ck.tombstone
            then Function.update s.freeSet l (s.freeSet l ++ [ck.npOrgAct])
            else s.freeSet }
        (logs_setLog s l _) hrest
        (by
          intro p hp
          refine hi p ?_
          rcases List.mem_append.mp hp with hp | hp
          · exact List.mem_append_left _
              (mem_of_mem_skipBogus (by rw [hvs]; exact List.mem_cons_of_mem _ hp))
          · exact List.mem_append_right _ hp)
        hlen
      refine ⟨s', r, ?_, ⟨?_, h2.freed⟩, h3, h4⟩
      · rw [reclaimLoop, nvlogPeekHead_cons hw hskip, hL]
        simp only [withHead_withHead, Option.bind_eq_bind, Option.bind_some,
          headCnt_withHead, prevHeadCnt_withHead, if_neg hne, hck, hdeq]
        exact h1
      · intro k hk
        rw [h2.logs k hk]
        exact logs_setLog_ne s hk _

/-- The entry at the head of the rest stops being a current master when it is
written back. -/
theorem curInv_writeback {s : State α} {R : ℕ → List (ℕ × NvlogEntry (CkptEntry α))}
    {l y : ℕ} {e : NvlogEntry (CkptEntry α)} {ck : CkptEntry α}
    {rs : List (ℕ × NvlogEntry (CkptEntry α))} {s' : State α}
    (h : CurInv s (Function.update R l ((y, e) :: rs))) (hck : e.obj = some ck)
    (hcur : s'.npCurAct = Function.update s.npCurAct ck.npOrgAct none)
    (hfr : s'.freed = s.freed) : CurInv s' (Function.update R l rs) := by
  intro o ho p hp
  rw [hfr] at ho
  rw [hcur] at hp
  by_cases hoe : o = ck.npOrgAct
  · rw [hoe, Function.update_self] at hp
    exact absurd hp (by simp)
  · rw [Function.update_of_ne hoe] at hp
    obtain ⟨x, f, ck', hm, hidx, hf, hck', horg, ht⟩ := h o ho p hp
    refine ⟨x, f, ck', ?_, hidx, hf, hck', horg, ht⟩
    by_cases hl : p.log = l
    · rw [hl, Function.update_self] at hm ⊢
      rcases List.mem_cons.mp hm with heq | hm
      · obtain ⟨-, rfl⟩ := Prod.mk.inj heq
        rw [hck, Option.some_inj] at hck'
        exact absurd (by rw [hck', horg]) hoe
      · exact hm
    · rw [Function.update_of_ne hl] at hm ⊢
      exact hm

/-- An entry that is not the current master of its object can be passed over. -/
theorem curInv_pass {s : State α} {R : ℕ → List (ℕ × NvlogEntry (CkptEntry α))}
    {l y : ℕ} {e : NvlogEntry (CkptEntry α)} {ck : CkptEntry α}
    {rs : List (ℕ × NvlogEntry (CkptEntry α))} {s' : State α}
    (h : CurInv s (Function.update R l ((y, e) :: rs))) (hck : e.obj = some ck)
    (hne : ¬ (s.npCurAct ck.npOrgAct = some ⟨l, y % ckptlogSize⟩ ∧ ck.tombstone = false))
    (hcur : s'.npCurAct = s.npCurAct) (hfr : s'.freed = s.freed) :
    CurInv s' (Function.update R l rs) := by
  intro o ho p hp
  rw [hfr] at ho
  rw [hcur] at hp
  obtain ⟨x, f, ck', hm, hidx, hf, hck', horg, ht⟩ := h o ho p hp
  refine ⟨x, f, ck', ?_, hidx, hf, hck', horg, ht⟩
  by_cases hl : p.log = l
  · rw [hl, Function.update_self] at hm ⊢
    rcases List.mem_cons.mp hm with heq | hm
    · obtain ⟨rfl, rfl⟩ := Prod.mk.inj heq
      rw [hck, Option.some_inj] at hck'
      subst hck'
      refine absurd ⟨?_, ht⟩ hne
      rw [horg, hp, ← hidx, ← hl]
    · exact hm
  · rw [Function.update_of_ne hl] at hm ⊢
    exact hm

/-- A filler at the head of the rest can be passed over. -/
theorem curInv_skip {s : State α} {R : ℕ → List (ℕ × NvlogEntry (CkptEntry α))} {l : ℕ}
    {es : List (ℕ × NvlogEntry (CkptEntry α))} (h : CurInv s (Function.update R l es)) :
    CurInv s (Function.update R l (skipBogus es)) := by
  intro o ho p hp
  obtain ⟨x, f, ck, hm, hidx, hf, hck, horg, ht⟩ := h o ho p hp
  refine ⟨x, f, ck, ?_, hidx, hf, hck, horg, ht⟩
  by_cases hl : p.log = l
  · rw [hl, Function.update_self] at hm ⊢
    obtain ⟨pre, hpre, hb⟩ := skipBogus_split es
    rw [hpre] at hm
    rcases List.mem_append.mp hm with hm | hm
    · rw [hb _ hm] at hf
      exact absurd hf (by simp)
    · exact hm
  · rw [Function.update_of_ne hl] at hm ⊢
    exact hm

/-- What the second loop leaves behind: it visited a prefix of the rest. -/
structure Visited (s s' : State α) (R : ℕ → List (ℕ × NvlogEntry (CkptEntry α))) (l c : ℕ)
    (L : Nvlog (CkptEntry α)) (rest vis rest' : List (ℕ × NvlogEntry (CkptEntry α))) : Prop where
  frame : Frame s s' l
  split : rest = vis ++ rest'
  log : ∃ d, s'.logs l = L.withHead d ∧ Walk L c vis d ∧ Walk L d rest' L.tailCnt
  head : ∀ p ∈ rest'.head?, p.2.type = .entry
  cur : CurInv s' (Function.update R l rest')

/-- The second loop visits a prefix of the rest; no entry it visited is a current
master afterwards. -/
theorem writebackLoop_spec (B l watermark qp2 : ℕ) {L : Nvlog (CkptEntry α)}
    {R : ℕ → List (ℕ × NvlogEntry (CkptEntry α))} (hsize : L.logSize = ckptlogSize) :
    ∀ (fuel c : ℕ) (rest : List (ℕ × NvlogEntry (CkptEntry α))) (s : State α),
      s.logs l = L.withHead c → Walk L c rest L.tailCnt →
      (∀ p ∈ rest, ItemOk L p) → CurInv s (Function.update R l rest) →
      rest.length < fuel →
      ∃ s' vis rest', writebackLoop B l watermark qp2 fuel s = some s' ∧
        Visited s s' R l c L rest vis rest' := by
  intro fuel
  induction fuel with
  | zero =>
    intro c rest s _ _ _ _ hf
    omega
  | succ fuel ih =>
    intro c rest s hL hr hi hcur hf
    have hw : Walk (s.logs l) (s.logs l).headCnt rest (s.logs l).tailCnt := by
      simpa only [hL, headCnt_withHead, tailCnt_withHead, walk_withHead] using hr
    obtain ⟨pre, hpre, -⟩ := skipBogus_split rest
    have hcur' := curInv_skip hcur
    cases hrs : skipBogus rest with
    | nil =>
      rw [hrs] at hpre hcur'
      refine ⟨s.setLog l (L.withHead L.tailCnt), rest, [], ?_,
        ⟨fun k hk => logs_setLog_ne s hk _, rfl⟩, (List.append_nil _).symm,
        ⟨L.tailCnt, logs_setLog s l _, hr, rfl⟩, by simp, hcur'⟩
      rw [writebackLoop, nvlogPeekHead_nil hw hrs, hL]
      rfl
    | cons q rs =>
      obtain ⟨y, e⟩ := q
      rw [hrs] at hpre hcur'
      obtain ⟨m, hwpre, hwrs⟩ := (hpre ▸ hr).split
      have hmy : y = m := hwrs.1
      subst hmy
      have het : e.type = .entry := type_of_skipBogus hr (fun p hp => (hi p hp).bogus) hrs
      have hmem : (y, e) ∈ rest := mem_of_mem_skipBogus (by rw [hrs]; simp)
      obtain ⟨ck, (hck : e.obj = some ck), hobj⟩ := (hi _ hmem).entry het
      have hpeek := nvlogPeekHead_cons hw hrs
      rw [hL, withHead_withHead] at hpeek
      have hdeq := nvlogDeq_walk hwrs het
      have hidx : nvlogIndex (L.withHead y) (L.withHead y).headCnt = y % ckptlogSize := by
        rw [nvlogIndex, logSize_withHead, headCnt_withHead, hsize]
      -- stopping at the entry `e`
      have hstop : Visited s (s.setLog l (L.withHead y)) R l c L rest pre ((y, e) :: rs) :=
        ⟨⟨fun k hk => logs_setLog_ne s hk _, rfl⟩, hpre,
          ⟨y, logs_setLog s l _, hwpre, hwrs⟩, by simpa using het, hcur'⟩
      -- going on behind the entry `e`
      have hgo : ∀ s₁ : State α, s₁.logs = (s.setLog l (L.withHead (y + e.size))).logs →
          s₁.freed = s.freed → CurInv s₁ (Function.update R l rs) →
          ∃ s' vis rest', writebackLoop B l watermark qp2 fuel s₁ = some s' ∧
            Visited s s' R l c L rest vis rest' := by
        intro s₁ hlogs hfr hc₁
        obtain ⟨-, hat, hpos, hend, hrest⟩ := hwrs
        have hl₁ : s₁.logs l = L.withHead (y + e.size) := by
          rw [hlogs]
          exact logs_setLog s l _
        obtain ⟨s', vis, rest', h1, h2⟩ := ih (y + e.size) rs s₁ hl₁ hrest
          (fun p hp => hi p (by rw [hpre]; simp [hp])) hc₁
          (by
            have := congrArg List.length hpre
            simp only [List.length_append, List.length_cons] at this
            omega)
        obtain ⟨d, hd, hw1, hw2⟩ := h2.log
        refine ⟨s', pre ++ (y, e) :: vis, rest', h1, ⟨?_, ?_⟩, ?_, ⟨d, hd, ?_, hw2⟩,
          h2.head, h2.cur⟩
        · intro k hk
          rw [h2.frame.logs k hk, hlogs]
          exact logs_setLog_ne s hk _
        · rw [h2.frame.freed, hfr]
        · rw [hpre, h2.split]
          simp
        · exact hwpre.append ⟨rfl, hat, hpos, hend, hw1⟩
      rw [writebackLoop, hL, hpeek]
      simp only [Option.bind_eq_bind, Option.bind_some, hck, hidx]
      by_cases hclk : gtClock B ck.ckptSClk qp2
      · rw [if_pos hclk]
        exact ⟨_, _, _, rfl, hstop⟩
      · rw [if_neg hclk]
        by_cases hwb : s.npCurAct ck.npOrgAct = some ⟨l, y % ckptlogSize⟩ ∧
            ck.tombstone = false
        · rw [if_pos hwb]
          by_cases hwm : nvlogUsed (L.withHead y) < watermark
          · rw [if_pos hwm]
            exact ⟨_, _, _, rfl, hstop⟩
          · rw [if_neg hwm]
            obtain ⟨obj, hob⟩ := hobj hwb.2
            simp only [hob, hdeq, Option.bind_some]
            exact hgo _ rfl rfl (curInv_writeback hcur' hck rfl rfl)
        · rw [if_neg hwb, hdeq, Option.bind_some]
          exact hgo _ rfl rfl (curInv_pass hcur' hck hwb rfl rfl)

/-! ### The calls keep the invariant -/

/-- Changing the counters of a log that are not used for decoding. -/
theorem walk_congr {β : Type*} {L L' : Nvlog β} {es : List (ℕ × NvlogEntry β)} {c d : ℕ}
    (hs : L'.logSize = L.logSize) (hb : L'.buffer = L.buffer) (h : Walk L c es d) :
    Walk L' c es d := by
  rw [Walk, hs, hb]
  exact h

theorem noteMinCkpt_frame (s : State α) (l : ℕ) (r : Option (NvlogEntry (CkptEntry α))) :
    (noteMinCkpt s l r).logs = s.logs ∧ (noteMinCkpt s l r).npCurAct = s.npCurAct ∧
      (noteMinCkpt s l r).freed = s.freed := by
  rw [noteMinCkpt]
  split <;> exact ⟨rfl, rfl, rfl⟩

/-- `ckptlog_reclaim_x` is defined and keeps the invariant. -/
theorem inv_reclaimX (B l watermark qp2 : ℕ) {s : State α} (h : Inv s) :
    ∃ s', ckptlogReclaimX B s l watermark qp2 = some s' ∧ Inv s' := by
  obtain ⟨visited, rest, hlog, hcur⟩ := h
  have hl := hlog l
  have hle := hl.walkVisited.le
  have hle' := hl.walkRest.le
  obtain ⟨s₁, r, h1, hf1, hL1, hc1⟩ := reclaimLoop_spec hl.walkRest hl.restHead
    (nvlogUsed (s.logs l) + 1) (s.logs l).headCnt (visited l) s rfl hl.walkVisited hl.item
    (by
      have := hl.walkVisited.length_le
      rw [nvlogUsed]
      omega)
  obtain ⟨hlogs, hnp, hfr⟩ := noteMinCkpt_frame s₁ l r
  have hcur₁ : CurInv (noteMinCkpt s₁ l r) (Function.update rest l (rest l)) := by
    rw [Function.update_eq_self]
    intro o ho p hp
    rw [hfr, hf1.freed] at ho
    rw [hnp, hc1] at hp
    exact hcur o ho p hp
  obtain ⟨s₂, vis, rest', h2, hv⟩ := writebackLoop_spec B l watermark qp2 hl.size (nvlogUsed (s₁.logs l) + 1) (s.logs l).prevHeadCnt (rest l) (noteMinCkpt s₁ l r)
    (by rw [hlogs, hL1]) hl.walkRest (fun p hp => hl.item p (by simp [hp])) hcur₁
    (by
      have := hl.walkRest.length_le
      rw [hL1, nvlogUsed, headCnt_withHead, tailCnt_withHead]
      omega)
  obtain ⟨d, hd, hw1, hw2⟩ := hv.log
  have hx : ∃ L₃ : Nvlog (CkptEntry α), ckptlogReclaimX B s l watermark qp2 =
      some (s₂.setLog l L₃) ∧ L₃.headCnt = (s.logs l).prevHeadCnt ∧ L₃.prevHeadCnt = d ∧
      L₃.tailCnt = (s.logs l).tailCnt ∧ L₃.logSize = (s.logs l).logSize ∧
      L₃.buffer = (s.logs l).buffer := by
    rw [ckptlogReclaimX, h1]
    simp only [Option.bind_eq_bind, Option.bind_some]
    rw [h2]
    simp only [Option.bind_some, hd, hL1, headCnt_withHead]
    split <;> exact ⟨_, rfl, rfl, rfl, rfl, rfl, rfl⟩
  obtain ⟨L₃, hx, e1, e2, e3, e4, e5⟩ := hx
  refine ⟨_, hx, Function.update visited l vis, Function.update rest l rest', ?_, ?_⟩
  · intro k
    by_cases hk : k = l
    · subst hk
      rw [logs_setLog, Function.update_self, Function.update_self]
      refine ⟨by rw [e4, hl.size], ?_, ?_, ?_, ?_, hv.head⟩
      · rw [e1, e2]
        exact walk_congr e4 e5 hw1
      · rw [e2, e3]
        exact walk_congr e4 e5 hw2
      · rw [e1, e3, e4]
        have := hl.cap
        omega
      · intro p hp
        have hok := hl.item p (List.mem_append_right _ (hv.split ▸ hp))
        refine ⟨fun hb => ?_, hok.entry⟩
        rw [e4]
        exact hok.bogus hb
    · rw [logs_setLog_ne _ hk, Function.update_of_ne hk, Function.update_of_ne hk,
        hv.frame.logs k hk, hlogs, hf1.logs k hk]
      exact hlog k
  · exact hv.cur

/-- The condition on the calls: an enqueue that inserts a filler does not insert
it at the boundary of the writeback, and the ring has room for it. -/
def FillerOk (s : State α) : Op α → Prop
  | .enq l _ _ chs | .enqTombstone l _ _ chs =>
    nvlogWraps (s.logs l) (nvlogEntrySize (ckptEnqSize chs.objSize)) →
      (s.logs l).prevHeadCnt ≠ (s.logs l).tailCnt ∧
      (s.logs l).tailCnt + nvlogBogusSize (s.logs l) ≤
        (s.logs l).headCnt + (s.logs l).logSize
  | .reclaim _ _ _ => True

instance (s : State α) : ∀ i, Decidable (FillerOk s i)
  | .enq _ _ _ _ => inferInstanceAs (Decidable (_ → _))
  | .enqTombstone _ _ _ _ => inferInstanceAs (Decidable (_ → _))
  | .reclaim _ _ _ => inferInstanceAs (Decidable True)

/-- A checkpoint entry of an accepted object is shorter than the log. -/
theorem ckptEntrySize_lt {n : ℕ} (h : tvlogAccepts n) :
    0 < nvlogEntrySize (ckptEnqSize n) ∧
      nvlogEntrySize (ckptEnqSize n) < ckptlogSize := by
  have hn : n < 2 ^ 20 := h.1
  simp only [nvlogEntrySize, ckptEnqSize, uint, sizeofCkptEntryHdr, sizeofObjHdr, sizeofNvlogEntryHdr,
    ckptlogSize]
  rw [Nat.mod_eq_of_lt (by omega), Nat.mod_eq_of_lt (by omega),
    alignUintToCacheline_eq (by omega)]
  omega

theorem itemOk_filler {L : Nvlog (CkptEntry α)} {n : ℕ} (hlt : n < L.logSize)
    {p : ℕ × NvlogEntry (CkptEntry α)} (hp : p ∈ nvlogFiller L n) : ItemOk L p := by
  obtain ⟨hb, ht⟩ := bogusOk_filler hlt hp
  refine ⟨hb, fun h => ?_⟩
  rw [ht] at h
  cases h

/-- Extending the rest of one log keeps the current masters. -/
theorem curInv_extend {s : State α} {R : ℕ → List (ℕ × NvlogEntry (CkptEntry α))} {l : ℕ}
    {es : List (ℕ × NvlogEntry (CkptEntry α))} (h : CurInv s R) :
    CurInv s (Function.update R l (R l ++ es)) := by
  intro o ho p hp
  obtain ⟨x, e, ck, hm, hrest⟩ := h o ho p hp
  refine ⟨x, e, ck, ?_, hrest⟩
  by_cases hl : p.log = l
  · rw [hl] at hm
    rw [hl, Function.update_self]
    exact List.mem_append_left _ hm
  · rw [Function.update_of_ne hl]
    exact hm

/-- The log invariant after the rest has been extended. -/
theorem logInv_extend {L L' : Nvlog (CkptEntry α)}
    {visited rest es : List (ℕ × NvlogEntry (CkptEntry α))} (h : LogInv L visited rest)
    (hh : L'.headCnt = L.headCnt) (hp : L'.prevHeadCnt = L.prevHeadCnt)
    (hs : L'.logSize = L.logSize) (hcap : L'.tailCnt ≤ L.headCnt + L.logSize)
    (hw : Walk L' L.headCnt (visited ++ rest ++ es) L'.tailCnt)
    (hes : ∀ p ∈ es, ItemOk L p)
    (hb : rest = [] → ∀ p ∈ es.head?, p.2.type = .entry) : LogInv L' visited (rest ++ es) := by
  rw [List.append_assoc] at hw
  obtain ⟨m, hw1, hw2⟩ := hw.split
  -- the walk over the visited entries still ends at the boundary
  have hm : m = L.prevHeadCnt := by
    rw [hw1.end_eq, h.walkVisited.end_eq]
  subst hm
  refine ⟨by rw [hs, h.size], ?_, ?_, ?_, ?_, ?_⟩
  · rw [hh, hp]
    exact hw1
  · rw [hp]
    exact hw2
  · rw [hh, hs]
    exact hcap
  · intro p hpm
    have hok : ItemOk L p := by
      rw [← List.append_assoc] at hpm
      rcases List.mem_append.mp hpm with hpm | hpm
      · exact h.item p hpm
      · exact hes p hpm
    refine ⟨fun hbt => ?_, hok.entry⟩
    rw [hs]
    exact hok.bogus hbt
  · intro p hpm
    cases rest with
    | nil => exact hb rfl p hpm
    | cons q rest => exact h.restHead p hpm

/-- A filler is only inserted behind entries the writeback has not visited. -/
theorem head_append_filler {L : Nvlog (CkptEntry α)} {n : ℕ}
    {visited rest : List (ℕ × NvlogEntry (CkptEntry α))} (h : LogInv L visited rest)
    (es : List (ℕ × NvlogEntry (CkptEntry α))) (hwr : nvlogWraps L n → L.prevHeadCnt ≠ L.tailCnt)
    (hes : ∀ p ∈ es.head?, p.2.type = .entry) (hr : rest = []) :
    ∀ p ∈ (nvlogFiller L n ++ es).head?, p.2.type = .entry := by
  have ht : L.prevHeadCnt = L.tailCnt := by
    have := h.walkRest
    rwa [hr] at this
  rw [nvlogFiller]
  split
  · rename_i hw
    exact absurd ht (hwr hw)
  · exact hes

theorem freed_ckptlogEnqX (s : State α) (l wrtClk ckptSClk : ℕ) (chs : Chs α) (t : Bool) :
    (ckptlogEnqX s l wrtClk ckptSClk chs t).freed = s.freed := by
  rw [ckptlogEnqX]
  split <;> rfl

/-- `_ckptlog_enq` keeps the invariant.  A tombstone leaves a master without an
object behind, so its object must count as freed from then on. -/
theorem inv_enqX {s : State α} {l wrtClk ckptSClk : ℕ} {chs : Chs α} {t : Bool}
    {freed : ℕ → Bool} (h : Inv s) (hacc : tvlogAccepts chs.objSize)
    (hok : FillerOk s (.enq l wrtClk ckptSClk chs))
    (hfr : ∀ o, freed o = false → s.freed o = false)
    (ht : t = true → freed chs.npOrgAct = true) :
    Inv { ckptlogEnqX s l wrtClk ckptSClk chs t with freed := freed } := by
  obtain ⟨visited, rest, hlog, hcur⟩ := h
  have hl := hlog l
  obtain ⟨h0, hlt⟩ := ckptEntrySize_lt hacc
  rw [← hl.size] at hlt
  have hw := hl.walkVisited.append hl.walkRest
  -- the logs other than `l` are not touched
  have hother : ∀ (es : List (ℕ × NvlogEntry (CkptEntry α))) (L' : Nvlog (CkptEntry α)),
      LogInv L' (visited l) (rest l ++ es) → ∀ k,
        LogInv ((s.setLog l L').logs k) (visited k)
          (Function.update rest l (rest l ++ es) k) := by
    intro es L' hL' k
    by_cases hk : k = l
    · subst hk
      rw [logs_setLog, Function.update_self]
      exact hL'
    · rw [logs_setLog_ne _ hk, Function.update_of_ne hk]
      exact hlog k
  rw [ckptlogEnqX]
  cases henq : nvlogEnq (s.logs l) (ckptEnqSize chs.objSize) with
  | mk L r =>
    cases r with
    | none =>
      rw [nvlogEnq_none hlt henq]
      obtain ⟨hh, hp, hs⟩ := nvlogMakeRoom_frame (s.logs l)
        (nvlogEntrySize (ckptEnqSize chs.objSize))
      have hwm := nvlogMakeRoom_walk hw (by omega) (fun hwr => (hok hwr).2)
      refine ⟨visited, Function.update rest l (rest l ++ nvlogFiller (s.logs l) _),
        hother _ _ (logInv_extend hl hh hp hs ?_ hwm ?_ ?_), ?_⟩
      · rw [nvlogMakeRoom]
        split
        · rename_i hwr
          exact (hok hwr).2
        · exact hl.cap
      · exact fun p hp => itemOk_filler hlt hp
      · intro hr p hpm
        refine head_append_filler hl [] (fun hwr => (hok hwr).1) (by simp) hr p ?_
        rw [List.append_nil]
        exact hpm
      · intro o ho p hp
        exact curInv_extend hcur o (hfr o ho) p hp
    | some cnt =>
      obtain ⟨hh, hp, hs, hcap, hwe⟩ := nvlogEnq_spec (w := wrtClk)
        (o := chs.entry ckptSClk t) hw h0 hlt (fun hwr => (hok hwr).2) henq
      rw [List.append_assoc] at hwe
      refine ⟨visited, Function.update rest l (rest l ++ _),
        hother _ _ (logInv_extend hl hh hp hs hcap hwe ?_ ?_), ?_⟩
      · intro p hpm
        rcases List.mem_append.mp hpm with hpm | hpm
        · exact itemOk_filler hlt hpm
        · rw [List.mem_singleton] at hpm
          subst hpm
          refine ⟨fun hb => absurd hb (by simp), fun _ => ⟨_, rfl, ?_⟩⟩
          intro hf
          have hf' : t = false := hf
          exact ⟨chs.obj, by simp [Chs.entry, hf']⟩
      · exact fun hr => head_append_filler hl _ (fun hwr => (hok hwr).1) (by simp) hr
      · intro o ho p hp
        by_cases ho' : o = chs.npOrgAct
        · subst ho'
          -- the new entry is the current master
          have hp' : p = ⟨l, nvlogIndex L cnt⟩ := by
            have hp : Function.update s.npCurAct chs.npOrgAct (some ⟨l, nvlogIndex L cnt⟩)
                chs.npOrgAct = some p := hp
            rw [Function.update_self, Option.some_inj] at hp
            exact hp.symm
          subst hp'
          refine ⟨cnt, ⟨wrtClk, nvlogEntrySize (ckptEnqSize chs.objSize), .entry,
            some (chs.entry ckptSClk t)⟩, chs.entry ckptSClk t, ?_, ?_, rfl, rfl, rfl, ?_⟩
          · rw [Function.update_self]
            exact List.mem_append_right _ (List.mem_append_right _ List.mem_cons_self)
          · have hs' : L.logSize = ckptlogSize := hs.trans hl.size
            rw [nvlogIndex, hs']
          · cases t with
            | false => rfl
            | true =>
              have ho : freed chs.npOrgAct = false := ho
              exact absurd (ht rfl) (by simp [ho])
        · have hp' : Function.update s.npCurAct chs.npOrgAct (some ⟨l, nvlogIndex L cnt⟩) o =
              some p := hp
          rw [Function.update_of_ne ho'] at hp'
          exact curInv_extend hcur o (hfr o ho) p hp'

theorem inv_initial (org : ℕ → α) : Inv (initial org) := by
  refine ⟨fun _ => [], fun _ => [], fun l => ⟨rfl, rfl, rfl, ?_, by simp, by simp⟩, ?_⟩
  · exact Nat.zero_le _
  · intro o _ p hp
    exact absurd hp (by simp [initial])

/-- Every allowed call keeps the invariant. -/
theorem inv_step {B : ℕ} {s s' : State α} {i : Op α} (h : Inv s) (hok : FillerOk s i)
    (hs : step B s i = some s') : Inv s' := by
  cases i with
  | enq l wrtClk ckptSClk chs =>
    rw [step] at hs
    split at hs
    · rename_i hacc
      rw [Option.some_inj] at hs
      subst hs
      refine inv_enqX h hacc hok (fun o ho => ?_) (by simp)
      exact (congrFun (freed_ckptlogEnqX s l wrtClk ckptSClk chs false) o).symm.trans ho
    · cases hs
  | enqTombstone l wrtClk ckptSClk chs =>
    rw [step] at hs
    split at hs
    · rename_i hacc
      rw [Option.some_inj] at hs
      subst hs
      refine inv_enqX h hacc hok (fun o ho => ?_) (fun _ => Function.update_self _ _ _)
      by_cases hoe : o = chs.npOrgAct
      · subst hoe
        rw [Function.update_self] at ho
        cases ho
      · rwa [Function.update_of_ne hoe] at ho
    · cases hs
  | reclaim l mode qp2 =>
    obtain ⟨s₁, h1, hi⟩ := inv_reclaimX B l (mode.watermark (s.logs l).logSize) qp2 h
    have hs : ckptlogReclaimX B s l (mode.watermark (s.logs l).logSize) qp2 = some s' := hs
    rw [h1, Option.some_inj] at hs
    exact hs ▸ hi

/-- Under the invariant the current master does not dangle. -/
theorem curActLive_of_inv {s : State α} (h : Inv s) {o : ℕ} (ho : s.freed o = false) :
    CurActLive s o := by
  obtain ⟨visited, rest, hlog, hcur⟩ := h
  cases hp : s.npCurAct o with
  | none => exact Or.inl hp
  | some p =>
    obtain ⟨x, e, ck, hm, hidx, het, hck, horg, -⟩ := hcur o ho p hp
    have hl := hlog p.log
    refine Or.inr ⟨p.log, x, e, ck, ?_, ?_, het, hck, horg⟩
    · rw [hp, nvlogIndex, hl.size, ← hidx]
    · exact ⟨visited p.log ++ rest p.log, hl.walkVisited.append hl.walkRest,
        List.mem_append_right _ hm⟩

/-! ### Runs -/

/-- When no enqueue inserts a filler at the writeback boundary or without room
for it, no current master dangles in any state, and every reclaim returns. -/
theorem np_cur_act_live (B : ℕ) (org : ℕ → α) {s : State α}
    (h : Run.Reach (· = initial org) (step B) FillerOk s) :
    (∀ o, s.freed o = false → CurActLive s o) ∧
      ∀ l mode qp2, ∃ s', step B s (.reclaim l mode qp2) = some s' := by
  have hi : Inv s := by
    refine h.invariant ?_ fun s i s' => inv_step
    rintro s rfl
    exact inv_initial org
  constructor
  · exact fun o ho => curActLive_of_inv hi ho
  · intro l mode qp2
    obtain ⟨s', hs', -⟩ := inv_reclaimX B l (mode.watermark (s.logs l).logSize) qp2 hi
    exact ⟨s', hs'⟩

/-- Four objects of a million bytes are checkpointed, two of them are written back and dropped,
and the checkpoint of a fifth object inserts a filler.  Reclamation goes over the filler and
stops at the fifth entry, which is too new to be written back. -/
def fillerRun : List (Op ℕ) :=
  [.enq 0 1 1 ⟨0, 1000000, 7⟩, .enq 0 1 1 ⟨1, 1000000, 7⟩, .enq 0 9 9 ⟨2, 1000000, 7⟩,
    .enq 0 9 9 ⟨3, 1000000, 7⟩, .reclaim 0 .writebackAll 5, .reclaim 0 .bestEffort 5,
    .enq 0 19 19 ⟨4, 1000000, 8⟩, .reclaim 0 .writebackAll 10, .reclaim 0 .bestEffort 10]

theorem np_cur_act_live_again :
    ∃ s : State ℕ, Run.Reach (· = initial fun _ => 0) (step 0) FillerOk s ∧
      s.npCurAct 4 = some ⟨0, 0⟩ ∧ (s.logs 0).headCnt = 4194304 ∧ CurActLive s 4 ∧
        ∀ l mode qp2, ∃ s', step 0 s (.reclaim l mode qp2) = some s' := by
  have hd : ((Run.exec (step 0) FillerOk (initial fun _ => 0) fillerRun).map fun s =>
      (s.npCurAct 4, (s.logs 0).headCnt, s.freed 4)) = some (some ⟨0, 0⟩, 4194304, false) := by
    decide +kernel
  rw [Option.map_eq_some_iff] at hd
  obtain ⟨s, hs, heq⟩ := hd
  obtain ⟨h1, h2, h3⟩ : s.npCurAct 4 = some ⟨0, 0⟩ ∧ (s.logs 0).headCnt = 4194304 ∧
      s.freed 4 = false := by
    simpa using heq
  have hr : Run.Reach (· = initial fun _ => 0) (step 0) FillerOk s := .of_exec (.init rfl) hs
  obtain ⟨h4, h5⟩ := np_cur_act_live 0 _ hr
  exact ⟨s, hr, h1, h2, h4 4 h3, h5⟩

/-- Four objects of a million bytes are checkpointed, written back and dropped,
which drains the log 194048 bytes before the end of the ring.  The checkpoint of
a fifth object inserts its filler at the boundary, and the next reclaim, which
writes nothing back, drops the fifth object all the same. -/
def danglingRun : List (Op ℕ) :=
  [.enq 0 1 1 ⟨0, 1000000, 0⟩, .enq 0 1 1 ⟨1, 1000000, 0⟩, .enq 0 1 1 ⟨2, 1000000, 0⟩,
    .enq 0 1 1 ⟨3, 1000000, 0⟩, .reclaim 0 .writebackAll 5, .reclaim 0 .writebackAll 5,
    .enq 0 9 9 ⟨4, 1000000, 0⟩, .reclaim 0 .bestEffort 5]

/-- In an unrestricted run the current master of an object that is not freed can
point behind the head of the log. -/
theorem np_cur_act_dangles :
    ∃ s : State ℕ, Run.Reach (· = initial fun _ => 0) (step 0) Run.any s ∧
      s.freed 4 = false ∧ ¬ CurActLive s 4 := by
  have hd : ((Run.exec (step 0) Run.any (initial fun _ => 0) danglingRun).map fun s =>
      (s.npCurAct 4, (s.logs 0).headCnt, (s.logs 0).tailCnt, s.freed 4)) =
      some (some ⟨0, 0⟩, 5194368, 5194368, false) := by
    decide +kernel
  rw [Option.map_eq_some_iff] at hd
  obtain ⟨s, hs, heq⟩ := hd
  obtain ⟨hp, hh, ht, hf⟩ : s.npCurAct 4 = some ⟨0, 0⟩ ∧ (s.logs 0).headCnt = 5194368 ∧
      (s.logs 0).tailCnt = 5194368 ∧ s.freed 4 = false := by
    simpa using heq
  refine ⟨s, .of_exec (.init rfl) hs, hf, ?_⟩
  rintro (h | ⟨l, cnt, e, ck, h, ⟨es, hw, hm⟩, -⟩)
  · rw [hp] at h
    cases h
  · rw [hp, Option.some_inj, EntryPtr.mk.injEq] at h
    obtain ⟨rfl, -⟩ := h
    have := hw.mem hm
    omega

end TimeStone.Ckptlog
