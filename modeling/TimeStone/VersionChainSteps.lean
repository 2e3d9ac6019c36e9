/-
What a step does to the versions.

Only the compare-and-swap of `ws_move_lock_to_copy` inserts a version, and only
`ws_unlock_commit` stamps one; all other steps are `Quiet`.

* `lockStep_quiet`, `commitStep_cases` — the steps of a thread;
* `lockStep_forward`, `commitStep_forward` — how the thread goes on;
* `plain_lockStep`, `plain_commitStep` — a copy that is in no chain has no newer version;
* `FreeLocked` — a freed object stays locked;
* `Leaves` — what the step leaves of the objects that other threads have locked;
* `inv_unlock` — one round of the loop of `ws_unlock_abort`.
-/
import TimeStone.VersionChainCommit

namespace TimeStone.VersionChain

variable {B : ℕ} {c c' c₁ : State} {t u o k j n w W : ℕ} {T : Thread}

/-- The version to which a program counter points. -/
def Pc.ptr : Pc → Option ℕ
  | .chkWrtClk _ _ k | .chkPending _ _ k | .chkWait _ _ k => some k
  | .tryTest _ _ old | .tryCas _ old _ | .recheck _ old _ => old
  | .moveInit _ old _ | .moveCas _ old _ => old
  | _ => none

/-- The new copy of a lock attempt. -/
def Pc.own : Pc → Option ℕ
  | .tryCas _ _ k | .recheck _ _ k => some k
  | _ => none

/-- A step of the thread `t` that inserts and stamps no version. -/
structure Quiet (c c' : State) (t : ℕ) : Prop where
  threads : ∀ u, u ≠ t → c'.threads u = c.threads u
  num : c.numCopies ≤ c'.numCopies
  inserted : ∀ k, (c'.copies k).inserted = (c.copies k).inserted
  obj : ∀ k < c.numCopies, (c'.copies k).obj = (c.copies k).obj
  ws : ∀ k < c.numCopies, (c'.copies k).ws = (c.copies k).ws
  wrtClk : ∀ k < c.numCopies, (c'.copies k).wrtClk = (c.copies k).wrtClk
  link : ∀ k, (c.copies k).inserted = true → (c'.copies k).pCopy = (c.copies k).pCopy
  head : c'.pCopy = c.pCopy
  thread : ∀ w < c.numWss, (c'.wss w).thread = (c.wss w).thread
  kind : ∀ k < c.numCopies, (c.copies k).wrtClk ≠ maxVersion →
    (c'.copies k).kind = (c.copies k).kind
  lock : ∀ k < c.numCopies, (c.copies k).wrtClk ≠ maxVersion →
    c.pLock (c.copies k).obj = some k → c'.pLock (c.copies k).obj = some k
  new : ∀ k < c'.numCopies, c.numCopies ≤ k → (c'.copies k).wrtClk = maxVersion

theorem Quiet.setThread : Quiet c (c.setThread t T) t where
  threads := fun u hu => by rw [setThread_threads, if_neg hu]
  num := Nat.le_refl _
  inserted := fun _ => rfl
  obj := fun _ _ => rfl
  ws := fun _ _ => rfl
  wrtClk := fun _ _ => rfl
  link := fun _ _ => rfl
  head := rfl
  thread := fun _ _ => rfl
  kind := fun _ _ _ => rfl
  lock := fun _ _ _ hl => hl
  new := fun _ hk hk' => absurd hk (Nat.not_lt.mpr hk')

theorem Quiet.setPc {pc : Pc} : Quiet c (c.setPc t pc) t := Quiet.setThread

/-- Changes of locks and threads. -/
theorem Quiet.of_copies (h : Quiet c c₁ t) (hcop : c'.copies = c₁.copies)
    (hnum : c'.numCopies = c₁.numCopies) (hhead : c'.pCopy = c₁.pCopy) (hwss : c'.wss = c₁.wss)
    (hlock : ∀ k < c.numCopies, (c.copies k).wrtClk ≠ maxVersion →
      c₁.pLock (c.copies k).obj = some k → c'.pLock (c.copies k).obj = some k)
    (hthr : ∀ u, u ≠ t → c'.threads u = c₁.threads u) : Quiet c c' t where
  threads := fun u hu => (hthr u hu).trans (h.threads u hu)
  num := hnum ▸ h.num
  inserted := hcop ▸ h.inserted
  obj := hcop ▸ h.obj
  ws := hcop ▸ h.ws
  wrtClk := hcop ▸ h.wrtClk
  link := hcop ▸ h.link
  head := hhead.trans h.head
  thread := hwss ▸ h.thread
  kind := hcop ▸ h.kind
  lock := fun k hk hw hl => hlock k hk hw (h.lock k hk hw hl)
  new := by
    rw [hnum, hcop]
    exact h.new

theorem Quiet.setPc' (h : Quiet c c₁ t) {pc : Pc} : Quiet c (c₁.setPc t pc) t :=
  h.of_copies rfl rfl rfl rfl (fun _ _ _ hl => hl) fun u hu => by rw [setPc_threads, if_neg hu]

theorem Quiet.refl : Quiet c c t :=
  ⟨fun _ _ => rfl, Nat.le_refl _, fun _ => rfl, fun _ _ => rfl, fun _ _ => rfl, fun _ _ => rfl,
    fun _ _ => rfl, rfl, fun _ _ => rfl, fun _ _ _ => rfl, fun _ _ _ hl => hl,
    fun _ hk hk' => absurd hk (Nat.not_lt.mpr hk')⟩

theorem quiet_appendBegin {kind : Kind} (h : Inv B c) : Quiet c (appendBegin c t o kind) t := by
  have hold : ∀ k < c.numCopies, (appendBegin c t o kind).copies k = c.copies k :=
    fun k hk => appendBegin_copies (Nat.ne_of_lt hk)
  constructor
  · intro u hu
    rw [appendBegin_threads, if_neg hu]
  · exact Nat.le_succ _
  · intro k
    by_cases hk : k = c.numCopies
    · -- the new copy is in no chain, and none was before
      rw [hk, appendBegin_new]
      cases hi : (c.copies c.numCopies).inserted with
      | false => rfl
      | true => exact absurd (h.chains.alloc _ hi).1 (Nat.lt_irrefl _)
    · rw [appendBegin_copies hk]
  · exact fun k hk => by rw [hold k hk]
  · exact fun k hk => by rw [hold k hk]
  · exact fun k hk => by rw [hold k hk]
  · exact fun k hk => by rw [hold k (h.chains.alloc k hk).1]
  · rfl
  · exact fun w hw => by rw [appendBegin_wss hw]
  · exact fun k hk _ => by rw [hold k hk]
  · exact fun _ _ _ hl => hl
  · intro k hk hk'
    have hk : k < c.numCopies + 1 := hk
    obtain rfl : k = c.numCopies := by omega
    rw [appendBegin_new]

/-- The lock of a stamped copy is not the one that is given up. -/
theorem lock_of_stamped (hj : c.pLock o = some j) (hjw : ¬ (c.copies j).Committed)
    (hk : (c.copies k).Committed) (hl : c.pLock (c.copies k).obj = some k) :
    (c.setPLock o none).pLock (c.copies k).obj = some k := by
  rw [setPLock_pLock, if_neg]
  · exact hl
  · rintro rfl
    rw [hl, Option.some_inj] at hj
    exact hjw (hj ▸ hk)

/-- A write to the fields of a copy that the versions do not depend on. -/
theorem quiet_setCopy {x : Copy} (hins : x.inserted = (c.copies k).inserted)
    (hobj : x.obj = (c.copies k).obj) (hws : x.ws = (c.copies k).ws)
    (hclk : x.wrtClk = (c.copies k).wrtClk)
    (hkind : x.kind = (c.copies k).kind ∨ (c.copies k).wrtClk = maxVersion)
    (hlink : (c.copies k).inserted = true → x.pCopy = (c.copies k).pCopy) :
    Quiet c (c.setCopy k x) t := by
  refine ⟨fun _ _ => rfl, Nat.le_refl _, ?_, ?_, ?_, ?_, ?_, rfl, fun _ _ => rfl, ?_,
    fun _ _ _ hl => hl, fun _ hk hk' => absurd hk (Nat.not_lt.mpr hk')⟩ <;> intro j
  · rw [setCopy_copies]
    split <;> simp_all
  · intro _
    rw [setCopy_copies]
    split <;> simp_all
  · intro _
    rw [setCopy_copies]
    split <;> simp_all
  · intro _
    rw [setCopy_copies]
    split <;> simp_all
  · intro hj
    rw [setCopy_copies]
    split <;> simp_all
  · intro _ hw
    rw [setCopy_copies]
    split
    · rename_i hjk
      rw [hjk] at hw ⊢
      exact hkind.resolve_right hw
    · rfl

theorem quiet_judge {kind : Kind} : Quiet c (judge B c t o kind k w) t := by
  unfold judge
  split <;> exact Quiet.setPc

theorem lockStep_quiet (h : Inv B c) (hs : lockStep B c t = some c') : Quiet c c' t := by
  have hp := (h.threads t).pc
  unfold lockStep at hs
  split at hs
  · split at hs <;> cases hs <;> exact Quiet.setPc
  · split at hs <;> cases hs
    · exact quiet_judge
    · exact Quiet.setPc
  · dsimp only at hs
    split at hs <;> cases hs
    · exact quiet_judge
    · exact Quiet.setPc
  · dsimp only at hs
    split at hs <;> cases hs
    exact quiet_judge
  · dsimp only at hs
    split at hs <;> cases hs <;> exact (quiet_appendBegin h).setPc'
  · split at hs <;> cases hs
    · rename_i o _ k _ hnone
      refine Quiet.refl.of_copies rfl rfl rfl rfl (fun j _ _ hl => ?_) fun u hu => by
        rw [setPc_threads, if_neg hu]
        rfl
      show (c.setPLock o (some k)).pLock (c.copies j).obj = some j
      rw [setPLock_pLock, if_neg]
      · exact hl
      · rintro ho
        rw [ho, hnone] at hl
        cases hl
    · exact Quiet.setPc
  · rename_i o _ k hpc
    rw [hpc] at hp
    obtain ⟨-, -, -, hk, -, hko, -⟩ := hp
    split at hs <;> cases hs
    · exact Quiet.refl.of_copies rfl rfl rfl rfl
        (fun _ _ hw hl => lock_of_stamped (hko ▸ hk.lock) hk.unstamped hw hl) fun u hu => by
          rw [setPc_threads, if_neg hu]
          rfl
    · exact Quiet.setThread
  · cases hs

theorem commitStep_cases (h : Inv B c) {v : ℕ} (hs : commitStep B c t v = some c') :
    Quiet c c' t ∨
    (∃ k ks, (c.threads t).pc = .moveCas k (c.pCopy (c.copies k).obj) ks ∧
      c' = ((c.setCopy k { c.copies k with inserted := true }).setPCopy (c.copies k).obj
        (some k)).setPc t (.move ks)) ∨
    ∃ W k ks, (c.threads t).pc = .stamp W (k :: ks) ∧
      c' = (unlockCommit c k W).setPc t (.stamp W ks) := by
  have hp := (h.threads t).pc
  unfold commitStep at hs
  dsimp only at hs
  split at hs
  · split at hs <;> cases hs
    · rename_i k ks _ _ _
      have hq : Quiet c (c.setCopy k { c.copies k with wrtClkPrev := maxVersion }) t :=
        quiet_setCopy rfl rfl rfl rfl (Or.inl rfl) fun _ => rfl
      exact Or.inl hq.setPc'
    · exact Or.inl Quiet.setPc
    · exact Or.inl Quiet.setPc
  · rename_i k old ks hpc
    cases hs
    rw [hpc] at hp
    have hins := hp.1.moving.waiting k (List.mem_cons_self ..)
    have hq : Quiet c (c.setCopy k { c.copies k with pCopy := old, wrtClkNext := nextClk c old }) t :=
      quiet_setCopy rfl rfl rfl rfl (Or.inl rfl) fun hi => by
        rw [hins] at hi
        cases hi
    exact Or.inl hq.setPc'
  · rename_i k old ks hpc
    split at hs <;> cases hs
    · rename_i heq
      exact Or.inr (Or.inl ⟨k, ks, by rw [hpc, heq], rfl⟩)
    · exact Or.inl Quiet.setPc
  · split at hs
    · cases hs
      exact Or.inl Quiet.setPc
    · cases hs
  · rename_i W hpc
    obtain ⟨w, hw, rfl⟩ := Option.map_eq_some_iff.mp hs
    refine Or.inl ⟨fun u hu => by rw [setPc_threads, if_neg hu]; rfl, Nat.le_refl _, fun _ => rfl,
      fun _ _ => rfl, fun _ _ => rfl, fun _ _ => rfl, fun _ _ => rfl, rfl, fun w' _ => ?_,
      fun _ _ _ => rfl, fun _ _ _ hl => hl, fun _ hk hk' => absurd hk (Nat.not_lt.mpr hk')⟩
    show ((c.setWs w _).wss w').thread = _
    rw [setWs_wss]
    split
    · rename_i he
      rw [he]
    · rfl
  · rename_i W hpc
    obtain ⟨w, hw, rfl⟩ := Option.map_eq_some_iff.mp hs
    refine Or.inl ⟨fun u hu => by rw [setPc_threads, if_neg hu]; rfl, Nat.le_refl _, fun _ => rfl,
      fun _ _ => rfl, fun _ _ => rfl, fun _ _ => rfl, fun _ _ => rfl, rfl, fun w' _ => ?_,
      fun _ _ _ => rfl, fun _ _ _ hl => hl, fun _ hk hk' => absurd hk (Nat.not_lt.mpr hk')⟩
    show ((c.setWs w _).wss w').thread = _
    rw [setWs_wss]
    split
    · rename_i he
      rw [he]
    · rfl
  · rename_i W k ks hpc
    cases hs
    exact Or.inr (Or.inr ⟨W, k, ks, hpc, rfl⟩)
  · cases hs
    exact Or.inl Quiet.setThread
  · cases hs

/-! ### The thread itself -/

theorem Inv.own_fresh (h : Inv B c) (hk : (c.threads t).pc.own = some k) :
    (c.copies k).inserted = false := by
  have hp := (h.threads t).pc
  cases hpc : (c.threads t).pc with
  | tryCas o old j =>
    rw [hpc] at hk hp
    obtain rfl := Option.some_inj.mp hk
    exact hp.2.2.2.2.2.2.1.1
  | recheck o old j =>
    rw [hpc] at hk hp
    obtain rfl := Option.some_inj.mp hk
    exact hp.2.2.2.2.1.1
  | _ =>
    rw [hpc] at hk
    cases hk

/-- How a thread goes on. -/
structure Forward (c c' : State) (t : ℕ) : Prop where
  inside : (c.threads t).pc ≠ .outside
  localClk : (c'.threads t).localClk = (c.threads t).localClk
  ptr : ∀ j, (c'.threads t).pc.ptr = some j →
    (c.threads t).pc.ptr = some j ∨ ∃ o, c.pCopy o = some j
  own : ∀ k, (c'.threads t).pc.own = some k →
    (c.threads t).pc.own = some k ∨ k = c.numCopies ∧ (c.threads t).pc.own = none
  held : ∀ k ∈ (c'.threads t).held, k ∈ (c.threads t).held ∨ (c.threads t).pc.own = some k
  keep : ∀ k ∈ (c.threads t).held, k ∈ (c'.threads t).held ∨ (c'.copies k).wrtClk ≠ maxVersion
  ownKeep : ∀ k, (c.threads t).pc.own = some k →
    (c'.threads t).pc.own = some k ∨ k ∈ (c'.threads t).held ∨ (c'.threads t).pc = .inTx

/-- Outside `ws_unlock_commit`, the thread goes to another program counter. -/
theorem Forward.of_pc {p : Pc} (hin : (c.threads t).pc ≠ .outside)
    (hne : ∀ W ks, (c.threads t).pc ≠ .stamp W ks) (hne' : ∀ W ks, p ≠ .stamp W ks)
    (hpc : (c'.threads t).pc = p) (hclk : (c'.threads t).localClk = (c.threads t).localClk)
    (hcop : (c'.threads t).copies = (c.threads t).copies)
    (hptr : ∀ j, p.ptr = some j → (c.threads t).pc.ptr = some j ∨ ∃ o, c.pCopy o = some j)
    (hown : ∀ k, p.own = some k →
      (c.threads t).pc.own = some k ∨ k = c.numCopies ∧ (c.threads t).pc.own = none)
    (hback : ∀ k, (c.threads t).pc.own = some k → p.own = some k ∨ p = .inTx) :
    Forward c c' t := by
  have hh : (c'.threads t).held = (c.threads t).held := by
    rw [held_eq hne, held_eq (by rw [hpc]; exact hne'), hcop]
  constructor
  · exact hin
  · exact hclk
  · rw [hpc]
    exact hptr
  · rw [hpc]
    exact hown
  · rw [hh]
    exact fun k hk => Or.inl hk
  · rw [hh]
    exact fun k hk => Or.inl hk
  · rw [hpc]
    intro k hk
    rcases hback k hk with h | h
    · exact Or.inl h
    · exact Or.inr (Or.inr h)

theorem Forward.setPc {p : Pc} (hin : (c.threads t).pc ≠ .outside)
    (hne : ∀ W ks, (c.threads t).pc ≠ .stamp W ks) (hne' : ∀ W ks, p ≠ .stamp W ks)
    (hT : c'.threads t = { c.threads t with pc := p })
    (hptr : ∀ j, p.ptr = some j → (c.threads t).pc.ptr = some j ∨ ∃ o, c.pCopy o = some j)
    (hown : ∀ k, p.own = some k →
      (c.threads t).pc.own = some k ∨ k = c.numCopies ∧ (c.threads t).pc.own = none)
    (hback : ∀ k, (c.threads t).pc.own = some k → p.own = some k ∨ p = .inTx) :
    Forward c c' t :=
  Forward.of_pc hin hne hne' (by rw [hT]) (by rw [hT]) (by rw [hT]) hptr hown hback

theorem forward_judge {kind : Kind} (hin : (c.threads t).pc ≠ .outside)
    (hne : ∀ W ks, (c.threads t).pc ≠ .stamp W ks) (hown : (c.threads t).pc.own = none)
    (hptr : (c.threads t).pc.ptr = some k) : Forward c (judge B c t o kind k w) t := by
  unfold judge
  split
  · refine Forward.setPc (p := .inTx) hin hne nofun (by simp) nofun nofun fun j hj => ?_
    rw [hown] at hj
    cases hj
  · refine Forward.setPc (p := .tryTest o kind (some k)) hin hne nofun (by simp)
      (fun j hj => ?_) nofun fun j hj => ?_
    · exact Or.inl (hptr.trans hj)
    · rw [hown] at hj
      cases hj

theorem lockStep_forward (hs : lockStep B c t = some c') : Forward c c' t := by
  unfold lockStep at hs
  split at hs
  · rename_i o kind hpc
    have hback : ∀ {pc : Pc}, ∀ k, (c.threads t).pc.own = some k → pc.own = some k ∨ pc = .inTx := by
      intro pc k hk
      rw [hpc] at hk
      cases hk
    split at hs <;> cases hs
    · exact Forward.setPc (p := .tryTest o kind none) (by simp [hpc]) (by simp [hpc]) nofun (by simp)
        nofun nofun hback
    · rename_i k hk
      refine Forward.setPc (p := .chkWrtClk o kind k) (by simp [hpc]) (by simp [hpc]) nofun (by simp)
        (fun j hj => ?_) nofun hback
      exact Or.inr ⟨o, hk.trans hj⟩
  · rename_i o kind k hpc
    have hptr : (c.threads t).pc.ptr = some k := by rw [hpc]; rfl
    have hown : (c.threads t).pc.own = none := by rw [hpc]; rfl
    split at hs <;> cases hs
    · exact forward_judge (by simp [hpc]) (by simp [hpc]) hown hptr
    · refine Forward.setPc (p := .chkPending o kind k) (by simp [hpc]) (by simp [hpc]) nofun
        (by simp) (fun j hj => Or.inl (hptr.trans hj)) nofun fun j hj => ?_
      rw [hown] at hj
      cases hj
  · rename_i o kind k hpc
    have hptr : (c.threads t).pc.ptr = some k := by rw [hpc]; rfl
    have hown : (c.threads t).pc.own = none := by rw [hpc]; rfl
    dsimp only at hs
    split at hs <;> cases hs
    · exact forward_judge (by simp [hpc]) (by simp [hpc]) hown hptr
    · refine Forward.setPc (p := .chkWait o kind k) (by simp [hpc]) (by simp [hpc]) nofun
        (by simp) (fun j hj => Or.inl (hptr.trans hj)) nofun fun j hj => ?_
      rw [hown] at hj
      cases hj
  · rename_i o kind k hpc
    dsimp only at hs
    split at hs <;> cases hs
    exact forward_judge (by simp [hpc]) (by simp [hpc]) (by rw [hpc]; rfl) (by rw [hpc]; rfl)
  · rename_i o kind old hpc
    have hown : (c.threads t).pc.own = none := by rw [hpc]; rfl
    dsimp only at hs
    split at hs <;> cases hs
    · exact Forward.of_pc (p := .inTx) (by simp [hpc]) (by simp [hpc]) nofun (by simp)
        (by simp [appendBegin_threads]) (by simp [appendBegin_threads]) nofun nofun
        fun j _ => Or.inr rfl
    · refine Forward.of_pc (p := .tryCas o old c.numCopies) (by simp [hpc]) (by simp [hpc]) nofun
        (by simp) (by simp [appendBegin_threads]) (by simp [appendBegin_threads])
        (fun j hj => Or.inl ?_) (fun k hk => Or.inr ⟨?_, hown⟩) fun j hj => ?_
      · rw [hpc]
        exact hj
      · exact (Option.some_inj.mp hk).symm
      · rw [hown] at hj
        cases hj
  · rename_i o old k hpc
    split at hs <;> cases hs
    · exact Forward.setPc (p := .recheck o old k) (by simp [hpc]) (by simp [hpc]) nofun
        (by rw [setPc_threads, if_pos rfl]; rfl) (fun j hj => Or.inl (by rw [hpc]; exact hj))
        (by simp [hpc, Pc.own]) (by simp [hpc, Pc.own])
    · exact Forward.setPc (p := .inTx) (by simp [hpc]) (by simp [hpc]) nofun (by simp) nofun nofun
        fun j _ => Or.inr rfl
  · rename_i o old k hpc
    have hheld : (c.threads t).held = (c.threads t).copies := held_eq (by simp [hpc])
    split at hs <;> cases hs
    · exact Forward.setPc (p := .inTx) (by simp [hpc]) (by simp [hpc]) nofun
        (by rw [setPc_threads, if_pos rfl]; rfl) nofun nofun fun j _ => Or.inr rfl
    · have hheld' : ((c.setThread t { c.threads t with
          pc := .inTx, copies := (c.threads t).copies ++ [k] }).threads t).held =
            (c.threads t).held ++ [k] := by
        rw [hheld, setThread_threads, if_pos rfl]
        rfl
      constructor
      · simp [hpc]
      · simp
      · simp [Pc.ptr]
      · simp [Pc.own]
      · rw [hheld', hpc]
        intro j hj
        rcases List.mem_append.mp hj with hj | hj
        · exact Or.inl hj
        · exact Or.inr (congrArg some (List.mem_singleton.mp hj).symm)
      · rw [hheld']
        exact fun j hj => Or.inl (List.mem_append_left _ hj)
      · simp
  · cases hs

/-- The copy that `ws_unlock_commit` is at. -/
theorem Inv.stamps_held (h : Inv B c) {ks : List ℕ}
    (hpc : (c.threads t).pc = .stamp W (k :: ks)) :
    k ∈ (c.threads t).held ∧ Stamps c (unlockCommit c k W) k W ∧
      (c.threads t).localClk + 2 * B < W ∧ W < maxVersion := by
  have hk : k ∈ (c.threads t).held := by
    rw [Thread.held, hpc]
    exact List.mem_cons_self ..
  have hp := (h.threads t).pc
  rw [hpc] at hp
  obtain ⟨-, -, h3, -, h5, h6⟩ := hp
  exact ⟨hk, stamps_unlockCommit h hk (h3 k (List.mem_cons_self ..)), h5, h6⟩

theorem commitStep_forward (h : Inv B c) {v : ℕ} (hs : commitStep B c t v = some c') :
    Forward c c' t := by
  unfold commitStep at hs
  dsimp only at hs
  split at hs
  · rename_i k ks hpc
    have hback : ∀ {pc : Pc}, ∀ k, (c.threads t).pc.own = some k → pc.own = some k ∨ pc = .inTx := by
      intro pc k hk
      rw [hpc] at hk
      cases hk
    split at hs <;> cases hs
    · exact Forward.setPc (p := .moveInit k (c.pCopy (c.copies k).obj) ks) (by simp [hpc])
        (by simp [hpc]) (by simp) (by rw [setPc_threads, if_pos rfl]; rfl)
        (fun j hj => Or.inr ⟨_, hj⟩) (by simp [Pc.own]) hback
    · exact Forward.setPc (p := .move ks) (by simp [hpc]) (by simp [hpc]) (by simp) (by simp)
        (by simp [Pc.ptr]) (by simp [Pc.own]) hback
    · exact Forward.setPc (p := .move ks) (by simp [hpc]) (by simp [hpc]) (by simp) (by simp)
        (by simp [Pc.ptr]) (by simp [Pc.own]) hback
  · rename_i k old ks hpc
    cases hs
    refine Forward.setPc (p := .moveCas k old ks) (by simp [hpc]) (by simp [hpc]) (by simp)
      (by rw [setPc_threads, if_pos rfl]; rfl) (fun j hj => Or.inl ?_) (by simp [Pc.own])
      fun j hj => ?_
    · rw [hpc]
      exact hj
    · rw [hpc] at hj
      cases hj
  · rename_i k old ks hpc
    have hback : ∀ {pc : Pc}, ∀ k, (c.threads t).pc.own = some k → pc.own = some k ∨ pc = .inTx := by
      intro pc k hk
      rw [hpc] at hk
      cases hk
    split at hs <;> cases hs
    · exact Forward.setPc (p := .move ks) (by simp [hpc]) (by simp [hpc]) (by simp)
        (by rw [setPc_threads, if_pos rfl]; rfl) (by simp [Pc.ptr]) (by simp [Pc.own]) hback
    · exact Forward.setPc (p := .moveInit k (c.pCopy (c.copies k).obj) ks) (by simp [hpc])
        (by simp [hpc]) (by simp) (by simp) (fun j hj => Or.inr ⟨_, hj⟩) (by simp [Pc.own]) hback
  · rename_i hpc
    split at hs
    · cases hs
      refine Forward.setPc (p := .gotClock v) (by simp [hpc]) (by simp [hpc]) (by simp) (by simp)
        (by simp [Pc.ptr]) (by simp [Pc.own]) fun j hj => ?_
      rw [hpc] at hj
      cases hj
    · cases hs
  · rename_i W hpc
    obtain ⟨w, hw, rfl⟩ := Option.map_eq_some_iff.mp hs
    refine Forward.setPc (p := .publish W) (by simp [hpc]) (by simp [hpc]) (by simp)
      (by rw [setPc_threads, if_pos rfl]; rfl) (by simp [Pc.ptr]) (by simp [Pc.own]) fun j hj => ?_
    rw [hpc] at hj
    cases hj
  · -- all copies of the write set are to be stamped
    rename_i W hpc
    obtain ⟨w, hw, rfl⟩ := Option.map_eq_some_iff.mp hs
    have hT : ((c.setWs w { c.wss w with wrtClk := W }).setPc t
        (.stamp W (c.threads t).copies)).threads t =
          { c.threads t with pc := .stamp W (c.threads t).copies } := by
      rw [setPc_threads, if_pos rfl]
      rfl
    have hheld : (c.threads t).held = (c.threads t).copies := held_eq (by simp [hpc])
    constructor
    · simp [hpc]
    · rw [hT]
    · rw [hT]
      simp [Pc.ptr]
    · rw [hT]
      simp [Pc.own]
    · rw [hT, hheld]
      exact fun k hk => Or.inl hk
    · rw [hT, hheld]
      exact fun k hk => Or.inl hk
    · simp [hpc, Pc.own]
  · rename_i W k ks hpc
    cases hs
    obtain ⟨-, hst, -, hW⟩ := h.stamps_held hpc
    have hT : ((unlockCommit c k W).setPc t (.stamp W ks)).threads t =
        { c.threads t with pc := .stamp W ks } := by
      rw [setPc_threads, if_pos rfl, hst.threads]
    have hheld : (c.threads t).held = k :: ks := by
      rw [Thread.held, hpc]
    constructor
    · simp [hpc]
    · rw [hT]
    · rw [hT]
      simp [Pc.ptr]
    · rw [hT]
      simp [Pc.own]
    · rw [hT, hheld]
      exact fun j hj => Or.inl (List.mem_cons_of_mem _ hj)
    · rw [hT, hheld]
      intro j hj
      rcases List.mem_cons.mp hj with rfl | hj
      · refine Or.inr ?_
        show ((unlockCommit c j W).copies j).wrtClk ≠ maxVersion
        rw [hst.self.1]
        omega
      · exact Or.inl hj
    · simp [hpc, Pc.own]
  · rename_i W hpc
    cases hs
    have hheld : (c.threads t).held = [] := by
      rw [Thread.held, hpc]
    constructor
    · simp [hpc]
    · simp
    · simp [Pc.ptr]
    · simp [Pc.own]
    · simp [Thread.held]
    · rw [hheld]
      simp
    · simp [hpc, Pc.own]
  · cases hs


/-! ### Copies that are in no chain -/

/-- The copy that a thread is about to insert. -/
def Pc.moving : Pc → Option ℕ
  | .moveInit k _ _ | .moveCas k _ _ => some k
  | _ => none

/-- Only the copies of a chain, and those that are about to enter one, have a `wrt_clk_prev`. -/
def Plain (c : State) : Prop :=
  ∀ k, (c.copies k).inserted = false →
    (c.copies k).wrtClkPrev = 0 ∨ ∃ t, (c.threads t).pc.moving = some k

theorem Plain.next (h : Plain c) (hthr : ∀ u, u ≠ t → c'.threads u = c.threads u)
    (hcop : ∀ k, (c'.copies k).inserted = false → (c'.copies k).wrtClkPrev = 0 ∨
      (c'.threads t).pc.moving = some k ∨
        (c.copies k).inserted = false ∧ (c'.copies k).wrtClkPrev = (c.copies k).wrtClkPrev ∧
          (c.threads t).pc.moving ≠ some k) : Plain c' := by
  intro k hk
  rcases hcop k hk with h1 | h1 | ⟨h1, h2, h3⟩
  · exact Or.inl h1
  · exact Or.inr ⟨t, h1⟩
  · rcases h k h1 with h4 | ⟨u, hu⟩
    · exact Or.inl (h2.trans h4)
    · refine Or.inr ⟨u, ?_⟩
      have hut : u ≠ t := by
        rintro rfl
        exact h3 hu
      rw [hthr u hut]
      exact hu

/-- A step outside `ws_move_lock_to_copy` that leaves the copies alone. -/
theorem Plain.same (h : Plain c) (hthr : ∀ u, u ≠ t → c'.threads u = c.threads u)
    (hpc : (c.threads t).pc.moving = none)
    (hcop : ∀ k, (c'.copies k).inserted = (c.copies k).inserted ∧
      (c'.copies k).wrtClkPrev = (c.copies k).wrtClkPrev) : Plain c' := by
  refine h.next hthr fun k hk => ?_
  obtain ⟨h1, h2⟩ := hcop k
  rw [h1] at hk
  exact Or.inr (Or.inr ⟨hk, h2, by rw [hpc]; exact nofun⟩)

theorem plain_judge (h : Plain c) {kind : Kind} (hpc : (c.threads t).pc.moving = none) :
    Plain (judge B c t o kind k w) := by
  unfold judge
  split <;> exact h.same (fun u hu => by rw [setPc_threads, if_neg hu]) hpc fun _ => ⟨rfl, rfl⟩

theorem plain_lockStep (h : Plain c) (hs : lockStep B c t = some c') : Plain c' := by
  have hset : ∀ {pc : Pc}, (c.threads t).pc.moving = none → Plain (c.setPc t pc) := fun hpc =>
    h.same (fun u hu => by rw [setPc_threads, if_neg hu]) hpc fun _ => ⟨rfl, rfl⟩
  have happ : ∀ {o kind} {pc : Pc}, (c.threads t).pc.moving = none →
      Plain ((appendBegin c t o kind).setPc t pc) := by
    intro o kind pc hpc
    refine h.next (t := t) (fun u hu => ?_) fun k hk => ?_
    · rw [setPc_threads, if_neg hu, appendBegin_threads, if_neg hu]
    · have hk' : ((appendBegin c t o kind).copies k).inserted = false := hk
      show ((appendBegin c t o kind).copies k).wrtClkPrev = 0 ∨ _
      by_cases hkn : k = c.numCopies
      · left
        rw [hkn, appendBegin_new]
      · rw [appendBegin_copies hkn] at hk'
        exact Or.inr (Or.inr ⟨hk', congrArg _ (appendBegin_copies hkn), by rw [hpc]; exact nofun⟩)
  unfold lockStep at hs
  split at hs <;> rename_i hpc
  · split at hs <;> cases hs <;> exact hset (by rw [hpc]; rfl)
  · split at hs <;> cases hs
    · exact plain_judge h (by rw [hpc]; rfl)
    · exact hset (by rw [hpc]; rfl)
  · dsimp only at hs
    split at hs <;> cases hs
    · exact plain_judge h (by rw [hpc]; rfl)
    · exact hset (by rw [hpc]; rfl)
  · dsimp only at hs
    split at hs <;> cases hs
    exact plain_judge h (by rw [hpc]; rfl)
  · dsimp only at hs
    split at hs <;> cases hs <;> exact happ (by rw [hpc]; rfl)
  · split at hs <;> cases hs
    · exact h.same (t := t) (fun u hu => by rw [setPc_threads, if_neg hu]; rfl) (by rw [hpc]; rfl)
        fun _ => ⟨rfl, rfl⟩
    · exact hset (by rw [hpc]; rfl)
  · split at hs <;> cases hs
    · exact h.same (t := t) (fun u hu => by rw [setPc_threads, if_neg hu]; rfl) (by rw [hpc]; rfl)
        fun _ => ⟨rfl, rfl⟩
    · exact h.same (fun u hu => by rw [setThread_threads, if_neg hu]) (by rw [hpc]; rfl)
        fun _ => ⟨rfl, rfl⟩
  · cases hs

/-- A stamp leaves the copies that are in no chain alone. -/
theorem Stamps.plain (hst : Stamps c c₁ k W) (hi : Inv B c) (hj : (c.copies j).inserted = false) :
    (c₁.copies j).wrtClkPrev = (c.copies j).wrtClkPrev := by
  by_cases hjk : j = k
  · rw [hjk]
    exact hst.self.2.2.2.2.2.2.1
  · rw [hst.other j hjk]
    intro hk hp
    rw [(hi.chains.link k j hk hp).inserted] at hj
    cases hj

theorem plain_commitStep (h : Plain c) (hi : Inv B c) {v : ℕ} (hs : commitStep B c t v = some c') :
    Plain c' := by
  have hset : ∀ {pc : Pc}, (c.threads t).pc.moving = none → Plain (c.setPc t pc) := fun hpc =>
    h.same (fun u hu => by rw [setPc_threads, if_neg hu]) hpc fun _ => ⟨rfl, rfl⟩
  -- a write to the copy that is about to be inserted
  have hmove : ∀ {k : ℕ} {x : Copy} {pc : Pc}, pc.moving = some k →
      ((c.threads t).pc.moving = none ∨ (c.threads t).pc.moving = some k) →
      Plain ((c.setCopy k x).setPc t pc) := by
    intro k x pc hpc' hpc
    refine h.next (t := t) (fun u hu => by rw [setPc_threads, if_neg hu]; rfl) fun j hj => ?_
    by_cases hjk : j = k
    · refine Or.inr (Or.inl ?_)
      rw [hjk, setPc_threads, if_pos rfl]
      exact hpc'
    · have hcj : ((c.setCopy k x).setPc t pc).copies j = c.copies j :=
        (setCopy_copies).trans (if_neg hjk)
      rw [hcj] at hj ⊢
      refine Or.inr (Or.inr ⟨hj, rfl, ?_⟩)
      rcases hpc with hpc | hpc <;> rw [hpc]
      · exact nofun
      · exact fun he => hjk (Option.some_inj.mp he).symm
  unfold commitStep at hs
  dsimp only at hs
  split at hs <;> rename_i hpc
  · split at hs <;> cases hs
    · exact hmove rfl (Or.inl (by rw [hpc]; rfl))
    · exact hset (by rw [hpc]; rfl)
    · exact hset (by rw [hpc]; rfl)
  · cases hs
    exact hmove rfl (Or.inr (by rw [hpc]; rfl))
  · rename_i k old ks
    split at hs <;> cases hs
    · refine h.next (t := t) (fun u hu => by rw [setPc_threads, if_neg hu]; rfl) fun j hj => ?_
      have hj' : ((c.setCopy k { c.copies k with inserted := true }).copies j).inserted = false := hj
      rw [setCopy_copies] at hj'
      split at hj'
      · cases hj'
      · rename_i hjk
        refine Or.inr (Or.inr ⟨hj', ?_, ?_⟩)
        · show ((c.setCopy k { c.copies k with inserted := true }).copies j).wrtClkPrev = _
          rw [setCopy_copies, if_neg hjk]
        · rw [hpc]
          exact fun he => hjk (Option.some_inj.mp he).symm
    · refine h.next (t := t) (fun u hu => by rw [setPc_threads, if_neg hu]) fun j hj => ?_
      by_cases hjk : j = k
      · refine Or.inr (Or.inl ?_)
        rw [hjk, setPc_threads, if_pos rfl]
        rfl
      · refine Or.inr (Or.inr ⟨hj, rfl, ?_⟩)
        rw [hpc]
        exact fun he => hjk (Option.some_inj.mp he).symm
  · split at hs
    · cases hs
      exact hset (by rw [hpc]; rfl)
    · cases hs
  · obtain ⟨w, -, rfl⟩ := Option.map_eq_some_iff.mp hs
    exact h.same (t := t) (fun u hu => by rw [setPc_threads, if_neg hu]; rfl) (by rw [hpc]; rfl)
      fun _ => ⟨rfl, rfl⟩
  · obtain ⟨w, -, rfl⟩ := Option.map_eq_some_iff.mp hs
    exact h.same (t := t) (fun u hu => by rw [setPc_threads, if_neg hu]; rfl) (by rw [hpc]; rfl)
      fun _ => ⟨rfl, rfl⟩
  · rename_i W k ks
    cases hs
    obtain ⟨-, hst, -⟩ := hi.stamps_held hpc
    refine h.next (t := t) (fun u hu => ?_) fun j hj => ?_
    · rw [setPc_threads, if_neg hu, hst.threads]
    · have hj' : ((unlockCommit c k W).copies j).inserted = false := hj
      rw [(hst.fields j).1] at hj'
      exact Or.inr (Or.inr ⟨hj', hst.plain hi hj', by rw [hpc]; exact nofun⟩)
  · cases hs
    exact h.same (fun u hu => by rw [setThread_threads, if_neg hu]) (by rw [hpc]; rfl)
      fun _ => ⟨rfl, rfl⟩
  · cases hs

/-! ### Freed objects -/

/-- A freed object stays locked. -/
def FreeLocked (c : State) : Prop :=
  ∀ k < c.numCopies, (c.copies k).wrtClk ≠ maxVersion → (c.copies k).kind = .free →
    c.pLock (c.copies k).obj = some k

theorem FreeLocked.quiet (h : FreeLocked c) (hq : Quiet c c' t) : FreeLocked c' := by
  intro k hk hw hfree
  by_cases hlt : k < c.numCopies
  · rw [hq.wrtClk k hlt] at hw
    rw [hq.kind k hlt hw] at hfree
    rw [hq.obj k hlt]
    exact hq.lock k hlt hw (h k hlt hw hfree)
  · exact absurd (hq.new k hk (Nat.not_lt.mp hlt)) hw

theorem Inserts.kind (hins : Inserts c c₁ k) : (c₁.copies j).kind = (c.copies j).kind := by
  by_cases hjk : j = k
  · rw [hjk, hins.self]
  · rw [hins.other j hjk]

theorem FreeLocked.insert (h : FreeLocked c) (hins : Inserts c c₁ k)
    (hcop : c'.copies = c₁.copies) (hnum : c'.numCopies = c₁.numCopies)
    (hlock : c'.pLock = c₁.pLock) : FreeLocked c' := by
  intro j hj hw hfree
  obtain ⟨hobj, -, hclk, -⟩ := hins.fields j
  rw [hnum, hins.numCopies] at hj
  rw [hcop, hclk] at hw
  rw [hcop, hins.kind] at hfree
  rw [hlock, hins.pLock, hcop, hobj]
  exact h j hj hw hfree

/-- Only a copy that is not freed is unlocked. -/
theorem unlockCommit_pLock (hk : (c.copies k).kind = .free) :
    (unlockCommit c k W).pLock = c.pLock := by
  unfold unlockCommit
  rw [hk]
  rfl

theorem Stamps.kind (hst : Stamps c c₁ k W) : (c₁.copies j).kind = (c.copies j).kind := by
  by_cases hjk : j = k
  · rw [hjk]
    exact hst.self.2.2.2.1
  · rw [hst.of_ne hjk]

theorem FreeLocked.stamp (h : FreeLocked c) (hi : Inv B c) (hk : k ∈ (c.threads t).held)
    (hst : Stamps c (unlockCommit c k W) k W) (hcop : c'.copies = (unlockCommit c k W).copies)
    (hnum : c'.numCopies = c.numCopies) (hlock : c'.pLock = (unlockCommit c k W).pLock) :
    FreeLocked c' := by
  have hh := (hi.threads t).holds k hk
  intro j hj hw hfree
  rw [hnum] at hj
  rw [hcop] at hw hfree
  rw [hst.kind] at hfree
  rw [hlock, hcop, (hst.fields j).2.1]
  by_cases hjk : j = k
  · subst hjk
    rw [unlockCommit_pLock hfree]
    exact hh.lock
  · rw [hst.wrtClk hjk] at hw
    have hl := h j hj hw hfree
    rw [hst.lock]
    · exact hl
    · intro ho
      rw [ho, hh.lock, Option.some_inj] at hl
      exact hjk hl.symm

theorem freeLocked_commitStep (h : FreeLocked c) (hi : Inv B c) {v : ℕ}
    (hs : commitStep B c t v = some c') : FreeLocked c' := by
  rcases commitStep_cases hi hs with hq | ⟨k, ks, -, rfl⟩ | ⟨W, k, ks, hpc, rfl⟩
  · exact h.quiet hq
  · exact h.insert inserts_moveCas rfl rfl rfl
  · obtain ⟨hk, hst, -⟩ := hi.stamps_held hpc
    exact h.stamp hi hk hst rfl hst.numCopies rfl

/-! ### What a step leaves to the other threads -/

/-- A step of the thread `t` keeps the copies that others have locked, and the versions of
their objects. -/
structure Leaves (c c' : State) (t : ℕ) : Prop where
  threads : ∀ u, u ≠ t → c'.threads u = c.threads u
  copy : ∀ u, u ≠ t → ∀ k ∈ (c.threads u).held, (c'.copies k).inserted = (c.copies k).inserted ∧
    (c'.copies k).obj = (c.copies k).obj ∧
      ((c.copies k).inserted = true → (c'.copies k).pCopy = (c.copies k).pCopy)
  head : ∀ u, u ≠ t → ∀ k ∈ (c.threads u).held, c'.pCopy (c.copies k).obj = c.pCopy (c.copies k).obj
  versions : ∀ u, u ≠ t → ∀ k ∈ (c.threads u).held, ∀ i, (c'.copies i).inserted = true →
    (c'.copies i).obj = (c.copies k).obj →
      (c.copies i).inserted = true ∧ (c.copies i).obj = (c.copies k).obj ∧
        (c'.copies i).wrtClk = (c.copies i).wrtClk

theorem Quiet.leaves (hq : Quiet c c' t) (hi : Inv B c) : Leaves c c' t := by
  refine ⟨hq.threads, fun u _ k hk => ?_, fun u _ k _ => by rw [hq.head], fun u _ k _ i h1 h2 => ?_⟩
  · exact ⟨hq.inserted k, hq.obj k ((hi.threads u).holds k hk).alloc, hq.link k⟩
  · rw [hq.inserted] at h1
    have hlt := (hi.chains.alloc i h1).1
    rw [hq.obj i hlt] at h2
    exact ⟨h1, h2, hq.wrtClk i hlt⟩

/-- Two threads do not hold the lock of one object. -/
theorem Inv.held_obj_ne (h : Inv B c) (hk : k ∈ (c.threads t).held) (hj : j ∈ (c.threads u).held)
    (hu : u ≠ t) : (c.copies j).obj ≠ (c.copies k).obj := by
  have hhj := (h.threads u).holds j hj
  exact h.obj_ne hk hhj.lock (h.ne_of_owner hk hu ((h.threads u).ws _ hhj.ws).2)

theorem leaves_insert (h : Inv B c) (hk : k ∈ (c.threads t).held) (hins : Inserts c c₁ k)
    (hcop : c'.copies = c₁.copies) (hhead : c'.pCopy = c₁.pCopy)
    (hthr : ∀ u, u ≠ t → c'.threads u = c.threads u) : Leaves c c' t := by
  refine ⟨hthr, fun u hu j hj => ?_, fun u hu j hj => ?_, fun u hu j hj i h1 h2 => ?_⟩
  · have hjk : j ≠ k := fun he => h.held_obj_ne hk hj hu (by rw [he])
    rw [hcop, hins.other j hjk]
    exact ⟨rfl, rfl, fun _ => rfl⟩
  · rw [hhead]
    exact hins.pCopy _ (h.held_obj_ne hk hj hu)
  · rw [hcop] at h1 h2 ⊢
    obtain ⟨f1, -, f3, -⟩ := hins.fields i
    rw [f1] at h2
    rcases hins.cases h1 with rfl | ⟨-, h3, -⟩
    · exact absurd h2.symm (h.held_obj_ne hk hj hu)
    · exact ⟨h3, h2, f3⟩

theorem leaves_stamp (h : Inv B c) (hk : k ∈ (c.threads t).held) (hst : Stamps c c₁ k W)
    (hcop : c'.copies = c₁.copies) (hhead : c'.pCopy = c₁.pCopy)
    (hthr : ∀ u, u ≠ t → c'.threads u = c.threads u) : Leaves c c' t := by
  refine ⟨hthr, fun u hu j hj => ?_, fun u hu j hj => ?_, fun u hu j hj i h1 h2 => ?_⟩
  · obtain ⟨f1, f2, -⟩ := hst.fields j
    rw [hcop]
    exact ⟨f1, f2, hst.pCopy_eq⟩
  · rw [hhead, hst.pCopy]
  · obtain ⟨f1, f2, -⟩ := hst.fields i
    rw [hcop] at h1 h2 ⊢
    rw [f1] at h1
    rw [f2] at h2
    refine ⟨h1, h2, hst.wrtClk ?_⟩
    rintro rfl
    exact h.held_obj_ne hk hj hu h2.symm

/-! ### `ws_unlock_abort` -/

/-- The lock for the first copy of the write set is given up. -/
theorem inv_unlock (h : Inv B c) {ks : List ℕ} (hpc : (c.threads t).pc = .inTx)
    (hks : (c.threads t).copies = k :: ks) :
    Inv B ((c.setPLock (c.copies k).obj none).setThread t { c.threads t with copies := ks }) := by
  have hc := h.chains
  have ht := h.threads t
  have hp := ht.pc
  rw [hpc] at hp
  have hheld : (c.threads t).held = k :: ks := by
    rw [← hks]
    exact held_eq (by rw [hpc]; exact nofun)
  have hkh : k ∈ (c.threads t).held := by
    rw [hheld]
    exact List.mem_cons_self ..
  have hlk := (ht.holds k hkh).lock
  have hlock : ∀ {o' k'}, c.pLock o' = some k' → k' ≠ k →
      (c.setPLock (c.copies k).obj none).pLock o' = some k' := by
    intro o' k' hl hne
    rw [setPLock_pLock, if_neg]
    · exact hl
    · rintro rfl
      rw [hlk, Option.some_inj] at hl
      exact hne hl.symm
  have hmem : k ∈ (c.threads t).copies := by
    rw [hks]
    exact List.mem_cons_self ..
  have hchains : Chains B (c.setPLock (c.copies k).obj none) := by
    refine ⟨hc.ws, hc.stamp, hc.alloc, hc.head, ?_, ?_, hc.one, hc.newest⟩
    · intro n k' hn hp
      exact (hc.link n k' hn hp).congr rfl rfl
    · intro n hn hu
      obtain ⟨g1, g2⟩ := hc.unstamped n hn hu
      refine ⟨g1, hlock g2 ?_⟩
      rintro rfl
      have hn' : (c.copies n).inserted = true := hn
      rw [(hp.1 n hmem).1] at hn'
      cases hn'
  have hnodup := ht.nodup
  rw [hks, List.nodup_cons] at hnodup
  have hne : ∀ k' ∈ ks, k' ≠ k := by
    rintro k' hk' rfl
    exact hnodup.1 hk'
  refine h.next (t := t) (hchains.congr {}) ?_ ?_
  · intro u hu
    refine ⟨by simp [hu, State.setPLock], Nat.le_refl _, Nat.le_refl _, fun _ _ => rfl,
      fun _ _ _ => rfl, fun _ _ => rfl, fun _ _ _ => rfl, fun _ _ _ => rfl, fun _ _ _ _ => rfl, ?_⟩
    intro k' _ hown _ hl
    exact ⟨hlock hl (h.ne_of_owner hkh hu hown), Or.inl rfl⟩
  · have hT : ({ c.threads t with copies := ks } : Thread).held = ks :=
      held_eq (by dsimp only; rw [hpc]; exact nofun)
    have hsub : ∀ k' ∈ ks, k' ∈ (c.threads t).copies := by
      rw [hks]
      exact fun k' hk' => List.mem_cons_of_mem _ hk'
    rw [setThread_threads, if_pos rfl]
    refine ⟨ht.ws, ht.localClk, hnodup.2, ?_, ?_, ?_⟩
    · rw [hT]
      intro k' hk'
      obtain ⟨g1, g2, g3, g4⟩ := ht.holds k' (by rw [hheld]; exact List.mem_cons_of_mem _ hk')
      exact ⟨g1, g2, g3, hlock g4 (hne k' hk')⟩
    · rw [hT]
      intro k' hk'
      obtain ⟨g1, g2⟩ := ht.after k' (by rw [hheld]; exact List.mem_cons_of_mem _ hk')
      exact ⟨g1, g2⟩
    · dsimp only
      rw [hpc]
      exact ⟨fun k' hk' => hp.1 k' (hsub k' hk'), hp.2⟩

end TimeStone.VersionChain
