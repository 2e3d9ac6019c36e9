/-
The transient version log inside its ring.

`TvlogInv` says that the bytes from head to tail decode as committed write sets,
followed by the open one if there is one, and that they fit the ring.  A lock
keeps it when the bytes it takes fit and a filler, if it needs one, is counted
and its size fits the 16 bits of `padding_size` (`LockFits`).  Reclamation,
commit and abort keep it without a condition, because the walk over whole write
sets can only stop at the start of one (`tvlogReclaimLoop_spec`,
`tvlogCkptLoop_spec`).

* `tvlogAlloc_sizes_iff` — the headers that `tvlog_alloc` writes record what they span
  exactly when the filler is shorter than 64 KB and the entry size does not wrap;
* `tvlogInv_lock` — an allowed lock keeps the invariant;
* `tvlogInv_commit`, `tvlogInv_abort`, `tvlogInv_reclaimX` — the other calls.
-/
import TimeStone.Tvlog

namespace TimeStone

/-- The bytes from `c` to `d` decode as the entries `es`. -/
abbrev TvWalk (T : Tvlog) : ℕ → List (ℕ × ObjHdr) → ℕ → Prop :=
  Ring.Walk tvlogSize getEntrySize T.hdrs

/-- The write set at `c`: its header `h` and its entries `objs`, as many as it
counts, up to `d`. -/
structure IsWs (T : Tvlog) (c : ℕ) (h : ObjHdr) (objs : List (ℕ × ObjHdr)) (d : ℕ) : Prop where
  walk : TvWalk T c ((c, h) :: objs) d
  type : T.types (tvlogIndex c) = .wrtSet
  numObjs : (T.wss (tvlogIndex c)).numObjs = objs.length
  start : (T.wss (tvlogIndex c)).startTailCnt = c

/-- The bytes from `c` to `d` are committed write sets, whose entries are `es`. -/
inductive CommittedSets (T : Tvlog) : ℕ → List (ℕ × ObjHdr) → ℕ → Prop
  | nil (c : ℕ) : CommittedSets T c [] c
  | cons {c m d : ℕ} {h : ObjHdr} {objs es : List (ℕ × ObjHdr)} (ws : IsWs T c h objs m)
      (clk : (T.wss (tvlogIndex c)).wrtClk ≠ maxVersion) (rest : CommittedSets T m es d) :
      CommittedSets T c (((c, h) :: objs) ++ es) d

/-- Behind the committed sets comes the open one or the tail. -/
def OpenSet (T : Tvlog) (s : ℕ) (es : List (ℕ × ObjHdr)) : Prop :=
  match T.curWrtSet with
  | none => s = T.tailCnt ∧ es = []
  | some i => i = tvlogIndex s ∧ (T.wss i).wrtClk = maxVersion ∧
      ∃ h objs, es = (s, h) :: objs ∧ IsWs T s h objs T.tailCnt

/-- An entry fills cache lines; that of a copy is as long as `tvlog_alloc` computes
for its object. -/
structure EntryOk (T : Tvlog) (p : ℕ × ObjHdr) : Prop where
  aligned : 64 ∣ getEntrySize p.2
  size : T.types (tvlogIndex p.1) = .copy ∨ T.types (tvlogIndex p.1) = .free →
    p.2.objSize < tvlogSize ∧ tvlogEntrySize p.2.objSize ≤ getEntrySize p.2

/-- The invariant of the log: `es` are its committed entries, `os` those of the
open write set, which starts at `s`. -/
structure LogShape (T : Tvlog) (s : ℕ) (es os : List (ℕ × ObjHdr)) : Prop where
  committed : CommittedSets T T.headCnt es s
  openSet : OpenSet T s os
  entries : ∀ p ∈ es ++ os, EntryOk T p
  aligned : 64 ∣ T.headCnt
  cap : T.tailCnt ≤ T.headCnt + tvlogSize

/-- The log has a shape. -/
def TvlogInv (T : Tvlog) : Prop := ∃ s es os, LogShape T s es os

/-! ### Frames -/

/-- The two logs hold the same bytes from counter `a` to counter `b`. -/
def SameBytes (T T' : Tvlog) (a b : ℕ) : Prop :=
  ∀ k, a ≤ k → k < b → T'.hdrs (tvlogIndex k) = T.hdrs (tvlogIndex k) ∧
    T'.types (tvlogIndex k) = T.types (tvlogIndex k) ∧
    T'.wss (tvlogIndex k) = T.wss (tvlogIndex k)

theorem SameBytes.mono {T T' : Tvlog} {a b a' b' : ℕ} (h : SameBytes T T' a b) (ha : a ≤ a')
    (hb : b' ≤ b) : SameBytes T T' a' b' :=
  fun k h1 h2 => h k (by omega) (by omega)

theorem SameBytes.trans {T T₁ T' : Tvlog} {a b : ℕ} (h1 : SameBytes T T₁ a b)
    (h2 : SameBytes T₁ T' a b) : SameBytes T T' a b := by
  intro k ha hb
  obtain ⟨e1, e2, e3⟩ := h1 k ha hb
  obtain ⟨f1, f2, f3⟩ := h2 k ha hb
  exact ⟨f1.trans e1, f2.trans e2, f3.trans e3⟩

theorem SameBytes.walk {T T' : Tvlog} {c d : ℕ} {es : List (ℕ × ObjHdr)}
    (h : SameBytes T T' c d) (hw : TvWalk T c es d) : TvWalk T' c es d := by
  refine hw.frame fun p hp => ?_
  obtain ⟨h1, h2, -, h4⟩ := hw.mem hp
  exact (h p.1 h1 (by omega)).1

theorem IsWs.lt {T : Tvlog} {c d : ℕ} {h : ObjHdr} {objs : List (ℕ × ObjHdr)}
    (hw : IsWs T c h objs d) : c < d := by
  have := hw.walk.mem List.mem_cons_self
  omega

theorem SameBytes.isWs {T T' : Tvlog} {c d : ℕ} {h : ObjHdr} {objs : List (ℕ × ObjHdr)}
    (hs : SameBytes T T' c d) (hw : IsWs T c h objs d) : IsWs T' c h objs d := by
  obtain ⟨-, ht, hws⟩ := hs c (le_refl _) hw.lt
  refine ⟨hs.walk hw.walk, ?_, ?_, ?_⟩
  · rw [ht, hw.type]
  · rw [hws, hw.numObjs]
  · rw [hws, hw.start]

theorem CommittedSets.le {T : Tvlog} {c d : ℕ} {es : List (ℕ × ObjHdr)}
    (h : CommittedSets T c es d) : c ≤ d := by
  induction h with
  | nil c => exact le_refl _
  | cons ws _ _ ih =>
    have := ws.lt
    omega

theorem SameBytes.committedSets {T T' : Tvlog} {c d : ℕ} {es : List (ℕ × ObjHdr)}
    (hs : SameBytes T T' c d) (h : CommittedSets T c es d) : CommittedSets T' c es d := by
  induction h with
  | nil c => exact .nil c
  | @cons c m d h objs es ws clk rest ih =>
    have hlt := ws.lt
    have hle := rest.le
    refine .cons ((hs.mono (le_refl _) hle).isWs ws) ?_ (ih (hs.mono hlt.le (le_refl _)))
    rw [(hs c (le_refl _) (by omega)).2.2]
    exact clk

theorem CommittedSets.walk {T : Tvlog} {c d : ℕ} {es : List (ℕ × ObjHdr)}
    (h : CommittedSets T c es d) : TvWalk T c es d := by
  induction h with
  | nil c => exact rfl
  | cons ws _ _ ih => exact ws.walk.append ih

theorem CommittedSets.append {T : Tvlog} {c m d : ℕ} {xs ys : List (ℕ × ObjHdr)}
    (h1 : CommittedSets T c xs m) (h2 : CommittedSets T m ys d) :
    CommittedSets T c (xs ++ ys) d := by
  induction h1 with
  | nil c => exact h2
  | cons ws clk _ ih =>
    rw [List.append_assoc]
    exact .cons ws clk (ih h2)

/-- A walk over whole cache lines ends at a cache line. -/
theorem walk_aligned {T : Tvlog} {c d : ℕ} {es : List (ℕ × ObjHdr)} (h : TvWalk T c es d)
    (hc : 64 ∣ c) (hes : ∀ p ∈ es, 64 ∣ getEntrySize p.2) : 64 ∣ d := by
  induction es generalizing c with
  | nil =>
    have hcd : c = d := h
    exact hcd ▸ hc
  | cons p es ih =>
    obtain ⟨-, -, -, -, hrest⟩ := h
    exact ih hrest (Nat.dvd_add hc (hes p List.mem_cons_self))
      fun q hq => hes q (List.mem_cons_of_mem _ hq)

/-! ### The loops of `tvlog_reclaim_x` -/

theorem wsForEach_walk {T : Tvlog} {c d : ℕ} {es : List (ℕ × ObjHdr)}
    (h : TvWalk T c es d) : wsForEach T es.length c = some (es, d) := by
  induction es generalizing c with
  | nil =>
    have hc : c = d := h
    rw [hc]
    rfl
  | cons p es ih =>
    obtain ⟨x, e⟩ := p
    obtain ⟨hx, hat, -, -, hrest⟩ := h
    have hat : tvlogAt T c = some e := hat
    rw [List.length_cons, wsForEach, hat]
    simp [ih hrest, hx]

theorem IsWs.at {T : Tvlog} {c d : ℕ} {h : ObjHdr} {objs : List (ℕ × ObjHdr)}
    (hw : IsWs T c h objs d) : tvlogAtWss T c = some (h, T.wss (tvlogIndex c)) := by
  have hat : tvlogAt T c = some h := hw.walk.2.1
  rw [tvlogAtWss, hat]
  simp [hw.type]

theorem IsWs.entries {T : Tvlog} {c d : ℕ} {h : ObjHdr} {objs : List (ℕ × ObjHdr)}
    (hw : IsWs T c h objs d) : wsEntries T h (T.wss (tvlogIndex c)) = some (objs, d) := by
  rw [wsEntries, hw.numObjs, hw.start]
  exact wsForEach_walk hw.walk.2.2.2.2

/-- The bytes of the entries of one type. -/
def typeBytes (T : Tvlog) (type : ObjType) (es : List (ℕ × ObjHdr)) : ℕ :=
  (es.map fun p => if T.types (tvlogIndex p.1) = type then getEntrySize p.2 else 0).sum

/-- The log bytes of the objects that a reclamation enqueued. -/
def enqBytes (sizes : List (ℕ × ℕ)) : ℕ := (sizes.map fun q => tvlogEntrySize q.2).sum

/-- At most `n` bytes are enqueued, of objects that a transient version log
accepts. -/
structure EnqOk (n : ℕ) (sizes : List (ℕ × ℕ)) : Prop where
  bytes : enqBytes sizes ≤ n
  size : ∀ q ∈ sizes, q.2 < tvlogSize

theorem EnqOk.nil (n : ℕ) : EnqOk n [] := ⟨Nat.zero_le _, by simp⟩

theorem EnqOk.mono {n m : ℕ} {sizes : List (ℕ × ℕ)} (h : EnqOk n sizes) (hm : n ≤ m) :
    EnqOk m sizes :=
  ⟨h.bytes.trans hm, h.size⟩

theorem EnqOk.append {n m : ℕ} {xs ys : List (ℕ × ℕ)} (h1 : EnqOk n xs) (h2 : EnqOk m ys) :
    EnqOk (n + m) (xs ++ ys) := by
  refine ⟨?_, fun q hq => ?_⟩
  · have h3 := h1.bytes
    have h4 := h2.bytes
    rw [enqBytes] at h3 h4 ⊢
    rw [List.map_append, List.sum_append]
    omega
  · rcases List.mem_append.mp hq with hq | hq
    · exact h1.size q hq
    · exact h2.size q hq

theorem typeBytes_append (T : Tvlog) (type : ObjType) (xs ys : List (ℕ × ObjHdr)) :
    typeBytes T type (xs ++ ys) = typeBytes T type xs + typeBytes T type ys := by
  simp [typeBytes]

theorem typeBytes_cons (T : Tvlog) (type : ObjType) (p : ℕ × ObjHdr)
    (es : List (ℕ × ObjHdr)) :
    typeBytes T type (p :: es) =
      (if T.types (tvlogIndex p.1) = type then getEntrySize p.2 else 0) +
        typeBytes T type es := by
  simp [typeBytes]

theorem typeBytes_cons_le (T : Tvlog) (type : ObjType) (p : ℕ × ObjHdr)
    (es : List (ℕ × ObjHdr)) : typeBytes T type es ≤ typeBytes T type (p :: es) := by
  rw [typeBytes_cons]
  omega

/-- No entry is both a copy and a freed copy. -/
theorem typeBytes_le {T : Tvlog} {c d : ℕ} {es : List (ℕ × ObjHdr)} (h : TvWalk T c es d) :
    typeBytes T .free es + typeBytes T .copy es ≤ d - c := by
  induction es generalizing c with
  | nil => simp [typeBytes]
  | cons p es ih =>
    obtain ⟨-, -, -, -, hrest⟩ := h
    have h1 := ih hrest
    have h2 := hrest.le
    rw [typeBytes_cons, typeBytes_cons]
    cases hty : T.types (tvlogIndex p.1) <;> simp <;> omega

/-- One more object of an entry of the given type. -/
theorem EnqOk.cons {T : Tvlog} {type : ObjType} {p : ℕ × ObjHdr} {es : List (ℕ × ObjHdr)}
    {sizes : List (ℕ × ℕ)} (h : EnqOk (typeBytes T type es) sizes) (w : ℕ)
    (hty : T.types (tvlogIndex p.1) = type)
    (hok : p.2.objSize < tvlogSize ∧ tvlogEntrySize p.2.objSize ≤ getEntrySize p.2) :
    EnqOk (typeBytes T type (p :: es)) ((w, p.2.objSize) :: sizes) := by
  refine ⟨?_, fun q hq => ?_⟩
  · have h1 := h.bytes
    rw [enqBytes] at h1 ⊢
    rw [typeBytes_cons, if_pos hty, List.map_cons, List.sum_cons]
    have h2 := hok.2
    simp only
    omega
  · rcases List.mem_cons.mp hq with rfl | hq
    · exact hok.1
    · exact h.size q hq

theorem reclaimWs_enq {T : Tvlog} (mode : TvlogMode) (env : Env) (w : ℕ)
    {es : List (ℕ × ObjHdr)} (h : ∀ p ∈ es, EntryOk T p) :
    EnqOk (typeBytes T .free es) (reclaimWs T mode env w es).2 := by
  induction es with
  | nil => exact .nil _
  | cons p es ih =>
    obtain ⟨cnt, e⟩ := p
    have ih := ih fun q hq => h q (List.mem_cons_of_mem _ hq)
    have hskip := ih.mono (typeBytes_cons_le T .free (cnt, e) es)
    rw [reclaimWs]
    cases hty : T.types (tvlogIndex cnt) with
    | copy =>
      simp only
      split
      · exact .nil _
      · exact hskip
    | free =>
      simp only
      split
      · exact ih.cons w hty ((h (cnt, e) List.mem_cons_self).size (Or.inr hty))
      · exact hskip
    | wrtSet => exact hskip
    | bogus => exact hskip

theorem ckptWs_enq {T : Tvlog} (mode : TvlogMode) (env : Env) (w : ℕ)
    {es : List (ℕ × ObjHdr)} (h : ∀ p ∈ es, EntryOk T p) :
    EnqOk (typeBytes T .copy es) (ckptWs T mode env w es).2 := by
  induction es with
  | nil => exact .nil _
  | cons p es ih =>
    obtain ⟨cnt, e⟩ := p
    have ih := ih fun q hq => h q (List.mem_cons_of_mem _ hq)
    unfold ckptWs
    split
    · rename_i hc
      cases mode with
      | bestEffort => exact .nil _
      | ckpt => exact ih.cons w hc.1 ((h (cnt, e) List.mem_cons_self).size (Or.inl hc.1))
    · exact ih.mono (typeBytes_cons_le T .copy (cnt, e) es)

/-- Where a loop over the committed write sets from `c` to `s` stops: at the start
of a write set or at `s`, having enqueued entries of one type only. -/
structure StopsAt (T : Tvlog) (type : ObjType) (c s : ℕ) (es : List (ℕ × ObjHdr)) (x : ℕ)
    (sizes : List (ℕ × ℕ)) : Prop where
  enq : EnqOk (typeBytes T type es) sizes
  split : ∃ pre post, es = pre ++ post ∧ CommittedSets T c pre x ∧ CommittedSets T x post s

/-- The open write set, if there is one, stops a loop. -/
def Blocked (T : Tvlog) (s : ℕ) : Prop :=
  s = T.tailCnt ∨ ∃ h ws, tvlogAtWss T s = some (h, ws) ∧ ws.wrtClk = maxVersion

theorem OpenSet.blocked {T : Tvlog} {s : ℕ} {os : List (ℕ × ObjHdr)} (h : OpenSet T s os) :
    Blocked T s := by
  rw [OpenSet] at h
  split at h
  · exact Or.inl h.1
  · obtain ⟨rfl, hclk, e, objs, -, hws⟩ := h
    exact Or.inr ⟨e, _, hws.at, hclk⟩

/-- A loop over write sets stops at the start of one. -/
theorem wsLoop_spec {T : Tvlog} {type : ObjType} {s : ℕ} (stop tooNew : ℕ → Bool)
    {body : ℕ → List (ℕ × ObjHdr) → Bool × List (ℕ × ℕ)}
    (hbody : ∀ w es, (∀ p ∈ es, EntryOk T p) → EnqOk (typeBytes T type es) (body w es).2)
    (hb : Blocked T s) :
    ∀ (fuel c : ℕ) (es : List (ℕ × ObjHdr)), CommittedSets T c es s →
      (∀ p ∈ es, EntryOk T p) → es.length < fuel →
      ∃ x sizes, wsLoop T stop tooNew body fuel c = some (x, sizes) ∧
        StopsAt T type c s es x sizes := by
  intro fuel
  induction fuel with
  | zero =>
    intro c es _ _ hf
    omega
  | succ fuel ih =>
    intro c es hes hok hf
    have hstay : ∃ pre post, es = pre ++ post ∧ CommittedSets T c pre c ∧
        CommittedSets T c post s := ⟨[], es, rfl, .nil c, hes⟩
    rw [wsLoop]
    split
    · exact ⟨_, _, rfl, .nil _, hstay⟩
    · rename_i hgo
      cases hes with
      | nil =>
        -- only an open write set is left
        rcases hb with hb | ⟨h, ws, hat, hclk⟩
        · exact absurd (Or.inl (by omega)) hgo
        · exact ⟨_, _, by simp [hat, hclk], .nil _, hstay⟩
      | @cons _ m _ h objs es' ws clk rest =>
        have hws := hbody (T.wss (tvlogIndex c)).wrtClk objs fun p hp => hok p (by simp [hp])
        have hle := typeBytes_cons_le T type (c, h) objs
        simp only [ws.at, Option.bind_eq_bind, Option.bind_some, ws.entries]
        split
        · exact ⟨_, _, rfl, .nil _, hstay⟩
        · split
          · rename_i sizes hr
            rw [hr] at hws
            refine ⟨_, _, rfl, hws.mono ?_, hstay⟩
            rw [typeBytes_append]
            omega
          · rename_i sizes hr
            rw [hr] at hws
            obtain ⟨x, sizes', h1, h2⟩ := ih m es' rest (fun p hp => hok p (by simp [hp]))
              (by simp only [List.length_append, List.length_cons] at hf; omega)
            obtain ⟨pre, post, hsp, hpre, hpost⟩ := h2.split
            refine ⟨x, sizes ++ sizes', by simp [h1], ?_, ((c, h) :: objs) ++ pre, post,
              by simp [hsp], .cons ws clk hpre, hpost⟩
            rw [typeBytes_append]
            exact (hws.mono hle).append h2.enq

/-! ### Reclamation, commit and abort -/

theorem OpenSet.le {T : Tvlog} {s : ℕ} {os : List (ℕ × ObjHdr)} (h : OpenSet T s os) :
    s ≤ T.tailCnt := by
  rw [OpenSet] at h
  split at h
  · omega
  · obtain ⟨-, -, e, objs, -, hws⟩ := h
    exact hws.lt.le

theorem OpenSet.walk {T : Tvlog} {s : ℕ} {os : List (ℕ × ObjHdr)} (h : OpenSet T s os) :
    TvWalk T s os T.tailCnt := by
  rw [OpenSet] at h
  split at h
  · obtain ⟨rfl, rfl⟩ := h
    exact rfl
  · obtain ⟨-, -, e, objs, rfl, hws⟩ := h
    exact hws.walk

theorem OpenSet.congr {T T' : Tvlog} {s : ℕ} {os : List (ℕ × ObjHdr)} (h : OpenSet T s os)
    (hs : SameBytes T T' s T.tailCnt) (ht : T'.tailCnt = T.tailCnt)
    (hc : T'.curWrtSet = T.curWrtSet) : OpenSet T' s os := by
  rw [OpenSet, hc, ht]
  rw [OpenSet] at h
  cases hcur : T.curWrtSet with
  | none =>
    rw [hcur] at h
    exact h
  | some i =>
    rw [hcur] at h
    obtain ⟨rfl, h2, e, objs, h3, h4⟩ := h
    refine ⟨rfl, ?_, e, objs, h3, hs.isWs h4⟩
    rw [(hs s (le_refl _) h4.lt).2.2]
    exact h2

/-- `tvlog_reclaim_x` returns, with the head and the previous head at starts of
write sets, and enqueues every copy at most once. -/
theorem LogShape.reclaimX (B : ℕ) {T : Tvlog} {s : ℕ} {es os : List (ℕ × ObjHdr)}
    (mode : TvlogMode) (env : Env) (ckptSClk : ℕ) (hs : LogShape T s es os) :
    ∃ x y sizes pre mid post, es = pre ++ (mid ++ post) ∧ CommittedSets T T.headCnt pre x ∧
      CommittedSets T x mid y ∧ CommittedSets T y post s ∧
      tvlogReclaimX B T mode env ckptSClk =
        some ({ T with headCnt := x, prevHeadCnt := y }, sizes) ∧
      LogShape { T with headCnt := x, prevHeadCnt := y } s (mid ++ post) os ∧
      EnqOk (tvlogUsed T) sizes := by
  have hle := hs.openSet.le
  have hwalk := hs.committed.walk
  have hlen := hwalk.length_le
  have hcle := hwalk.le
  have hent : ∀ p ∈ es, EntryOk T p := fun p hp => hs.entries p (List.mem_append_left _ hp)
  obtain ⟨x, sizes, h1, hx⟩ := wsLoop_spec (fun cnt => decide (cnt = T.prevHeadCnt))
    (fun _ => false) (fun w _ => reclaimWs_enq mode env w) hs.openSet.blocked
    (tvlogUsed T + 1) T.headCnt es hs.committed hent (by rw [tvlogUsed]; omega)
  obtain ⟨pre, post, rfl, hpre, hpost⟩ := hx.split
  have hple := hpre.le
  have hpost' := hpost.walk.length_le
  obtain ⟨y, sizes', h2, hy⟩ := wsLoop_spec (fun _ => false)
    (fun wrtClk => decide (gteClock B wrtClk ckptSClk)) (fun w _ => ckptWs_enq mode env w)
    hs.openSet.blocked (tvlogUsed T + 1) x post hpost
    (fun p hp => hent p (List.mem_append_right _ hp)) (by rw [tvlogUsed]; omega)
  obtain ⟨mid, post, rfl, hmid, hend⟩ := hy.split
  refine ⟨x, y, sizes ++ sizes', pre, mid, post, rfl, hpre, hmid, hend, ?_, ?_, ?_⟩
  · rw [tvlogReclaimX, tvlogReclaimLoop, h1]
    simp only [Option.bind_eq_bind, Option.bind_some, tvlogCkptLoop]
    rw [h2]
    rfl
  · refine ⟨?_, ?_, ?_, ?_, ?_⟩
    · exact SameBytes.committedSets (T := T) (fun _ _ _ => ⟨rfl, rfl, rfl⟩) hpost
    · exact hs.openSet.congr (fun _ _ _ => ⟨rfl, rfl, rfl⟩) rfl rfl
    · intro p hp
      have hok := hs.entries p (by
        rw [List.append_assoc]
        exact List.mem_append_right _ hp)
      exact ⟨hok.aligned, hok.size⟩
    · exact walk_aligned hpre.walk hs.aligned fun p hp => (hent p (by simp [hp])).aligned
    · have := hs.cap
      simp only
      omega
  · -- the first loop enqueues freed copies, the second one copies
    refine (hx.enq.append hy.enq).mono ?_
    have h3 := typeBytes_le hwalk
    have h4 := typeBytes_append T .copy pre (mid ++ post)
    rw [tvlogUsed]
    omega

/-- `tvlog_reclaim_x` returns, keeps the invariant, and enqueues every copy at
most once. -/
theorem tvlogInv_reclaimX (B : ℕ) {T : Tvlog} (mode : TvlogMode) (env : Env) (ckptSClk : ℕ)
    (h : TvlogInv T) :
    ∃ T' sizes, tvlogReclaimX B T mode env ckptSClk = some (T', sizes) ∧ TvlogInv T' ∧
      EnqOk (tvlogUsed T) sizes := by
  obtain ⟨s, es, os, hs⟩ := h
  obtain ⟨x, y, sizes, pre, mid, post, -, -, -, -, hT, hinv, henq⟩ :=
    hs.reclaimX B mode env ckptSClk
  exact ⟨_, sizes, hT, ⟨s, _, os, hinv⟩, henq⟩

theorem markFree_types (freed : ℕ → Bool) (es : List (ℕ × ObjHdr)) (types : ℕ → ObjType)
    (i : ℕ) :
    markFree freed types es i = types i ∨
      types i = .copy ∧ markFree freed types es i = .free ∧ ∃ p ∈ es, tvlogIndex p.1 = i := by
  induction es generalizing types with
  | nil => exact Or.inl rfl
  | cons p es ih =>
    rw [markFree, List.foldl_cons, ← markFree]
    split
    · rename_i hc
      rcases ih (Function.update types (tvlogIndex p.1) .free) with h | ⟨h1, h2, q, hq, hqi⟩
      · by_cases hi : tvlogIndex p.1 = i
        · subst hi
          rw [Function.update_self] at h
          exact Or.inr ⟨hc.1, h, p, List.mem_cons_self, rfl⟩
        · rw [Function.update_of_ne (Ne.symm hi)] at h
          exact Or.inl h
      · by_cases hi : i = tvlogIndex p.1
        · rw [hi, Function.update_self] at h1
          cases h1
        · rw [Function.update_of_ne hi] at h1
          exact Or.inr ⟨h1, h2, q, List.mem_cons_of_mem _ hq, hqi⟩
    · rcases ih types with h | ⟨h1, h2, q, hq, hqi⟩
      · exact Or.inl h
      · exact Or.inr ⟨h1, h2, q, List.mem_cons_of_mem _ hq, hqi⟩

/-- The log that `tvlog_commit` leaves behind when the open write set starts at `s`
and has the entries `objs`. -/
def committedLog (T : Tvlog) (s wrtClk : ℕ) (freed : ℕ → Bool) (objs : List (ℕ × ObjHdr)) :
    Tvlog where
  __ := T
  types := markFree freed T.types objs
  wss := Function.update T.wss (tvlogIndex s) { T.wss (tvlogIndex s) with wrtClk := wrtClk }
  curWrtSet := none

/-- Committing changes no byte of the committed write sets. -/
theorem LogShape.sameBytes_commit {T : Tvlog} {s : ℕ} {es os : List (ℕ × ObjHdr)}
    (hs : LogShape T s es os) {e : ObjHdr} {objs : List (ℕ × ObjHdr)}
    (hws : IsWs T s e objs T.tailCnt) (wrtClk : ℕ) (freed : ℕ → Bool) :
    SameBytes T (committedLog T s wrtClk freed objs) T.headCnt s ∧
      markFree freed T.types objs (tvlogIndex s) = T.types (tvlogIndex s) := by
  have hle := hs.committed.le
  have hlt := hws.lt
  have hcap := hs.cap
  have htypes : ∀ k, T.headCnt ≤ k → k ≤ s →
      markFree freed T.types objs (tvlogIndex k) = T.types (tvlogIndex k) := by
    intro k h1 h2
    rcases markFree_types freed objs T.types (tvlogIndex k) with h | ⟨-, -, q, hq, hqi⟩
    · exact h
    · -- the entries of the open set lie behind the committed ones
      obtain ⟨hq1, hq2, -, hq4⟩ := hws.walk.2.2.2.2.mem hq
      have hpos := hws.walk.2.2.1
      have := Ring.index_inj (n := tvlogSize) (h := T.headCnt) (by omega) (by omega) h1
        (by omega) hqi
      omega
  refine ⟨fun k h1 h2 => ⟨rfl, htypes k h1 h2.le, ?_⟩, htypes s hle (le_refl _)⟩
  refine Function.update_of_ne (fun heq => ?_) _ _
  have := Ring.index_inj (n := tvlogSize) (h := T.headCnt) h1 (by omega) hle (by omega) heq
  omega

/-- `tvlog_commit` returns; the open write set is the last committed one then. -/
theorem LogShape.commit {T : Tvlog} {s wrtClk : ℕ} {es os : List (ℕ × ObjHdr)}
    (hs : LogShape T s es os) (freed : ℕ → Bool) (hcur : T.curWrtSet ≠ none)
    (hclk : wrtClk ≠ maxVersion) :
    ∃ e objs, os = (s, e) :: objs ∧ IsWs T s e objs T.tailCnt ∧
      wsEntries T e (T.wss (tvlogIndex s)) = some (objs, T.tailCnt) ∧
      tvlogCommit T wrtClk freed = some (committedLog T s wrtClk freed objs) ∧
      IsWs (committedLog T s wrtClk freed objs) s e objs T.tailCnt ∧
      LogShape (committedLog T s wrtClk freed objs) T.tailCnt (es ++ os) [] := by
  have ho := hs.openSet
  rw [OpenSet] at ho
  split at ho
  · contradiction
  · rename_i i hi
    obtain ⟨rfl, hmax, e, objs, rfl, hws⟩ := ho
    obtain ⟨hsame, htype⟩ := hs.sameBytes_commit hws wrtClk freed
    have hws' : IsWs (committedLog T s wrtClk freed objs) s e objs T.tailCnt := by
      refine ⟨hws.walk, htype.trans hws.type, ?_, ?_⟩
      · simp only [committedLog, Function.update_self]
        exact hws.numObjs
      · simp only [committedLog, Function.update_self]
        exact hws.start
    refine ⟨e, objs, rfl, hws, hws.entries, ?_, hws', ?_, ⟨rfl, rfl⟩, ?_, hs.aligned, hs.cap⟩
    · simp [tvlogCommit, hi, hws.start, hws.at, hws.entries, committedLog]
    · refine (hsame.committedSets hs.committed).append ?_
      rw [← List.append_nil ((s, e) :: objs)]
      refine .cons hws' ?_ (.nil _)
      simp only [committedLog, Function.update_self]
      exact hclk
    · intro p hp
      rw [List.append_nil] at hp
      refine ⟨(hs.entries p hp).aligned, fun hty => (hs.entries p hp).size ?_⟩
      rcases markFree_types freed objs T.types (tvlogIndex p.1) with h | ⟨h1, -, -⟩
      · have hty : markFree freed T.types objs (tvlogIndex p.1) = .copy ∨
            markFree freed T.types objs (tvlogIndex p.1) = .free := hty
        rwa [h] at hty
      · exact Or.inl h1

/-- `tvlog_commit` returns and keeps the invariant. -/
theorem tvlogInv_commit {T : Tvlog} {wrtClk : ℕ} (freed : ℕ → Bool) (h : TvlogInv T)
    (hcur : T.curWrtSet ≠ none) (hclk : wrtClk ≠ maxVersion) :
    ∃ T', tvlogCommit T wrtClk freed = some T' ∧ TvlogInv T' := by
  obtain ⟨s, es, os, hs⟩ := h
  obtain ⟨e, objs, -, -, -, hT, -, hinv⟩ := hs.commit freed hcur hclk
  exact ⟨_, hT, _, _, _, hinv⟩

/-- `tvlog_abort` drops the open write set. -/
theorem LogShape.abort {T : Tvlog} {s : ℕ} {es os : List (ℕ × ObjHdr)}
    (hs : LogShape T s es os) :
    LogShape (tvlogAbort T) s es [] ∧ (tvlogAbort T).headCnt = T.headCnt ∧
      (tvlogAbort T).tailCnt = s := by
  rw [tvlogAbort]
  split
  · rename_i hi
    have ho := hs.openSet
    rw [OpenSet, hi] at ho
    obtain ⟨rfl, rfl⟩ := ho
    exact ⟨hs, rfl, rfl⟩
  · rename_i i hi
    have ho := hs.openSet
    rw [OpenSet, hi] at ho
    obtain ⟨rfl, -, e, objs, rfl, hws⟩ := ho
    have hlt := hws.lt
    have hcap := hs.cap
    refine ⟨⟨?_, ?_, ?_, hs.aligned, ?_⟩, rfl, hws.start⟩
    · exact SameBytes.committedSets (T := T) (fun _ _ _ => ⟨rfl, rfl, rfl⟩) hs.committed
    · exact ⟨hws.start.symm, rfl⟩
    · intro p hp
      rw [List.append_nil] at hp
      have hok := hs.entries p (List.mem_append_left _ hp)
      exact ⟨hok.aligned, hok.size⟩
    · simp only [hws.start]
      omega

/-- `tvlog_abort` keeps the invariant. -/
theorem tvlogInv_abort {T : Tvlog} (h : TvlogInv T) : TvlogInv (tvlogAbort T) := by
  obtain ⟨s, es, os, hs⟩ := h
  exact ⟨s, es, [], hs.abort.1⟩

/-! ### Locking -/

/-- The size of the entry of a write-set header. -/
def wsEntrySize : ℕ := tvlogEntrySize sizeofWrtSet

/-- Where the object of the next lock is allocated: behind the write-set header,
which the first lock of a transaction appends. -/
def lockStart (T : Tvlog) : ℕ :=
  match T.curWrtSet with
  | some _ => T.tailCnt
  | none => T.tailCnt + (wsEntrySize +
      addExtraPadding T.tailCnt wsEntrySize sizeofWrtSetStruct false)

/-- Where the entry of a lock of `size` bytes ends, filler and padding included. -/
def lockEnd (T : Tvlog) (size : ℕ) : ℕ :=
  if tvlogWraps (lockStart T) (tvlogEntrySize size)
  then lockStart T + tvlogBogusSize (lockStart T) + tvlogEntrySize size
  else lockStart T + (tvlogEntrySize size +
    addExtraPadding (lockStart T) (tvlogEntrySize size) sizeofWrtSetStruct false)

/-- The condition on a lock.  Its bytes fit the ring; it inserts no filler in front
of the write-set header, and one in front of the object only when it then takes the
lock, so that the filler is counted, and when the filler is shorter than 64 KB. -/
def LockFits (T : Tvlog) (size : ℕ) (locked : Bool) : Prop :=
  lockEnd T size ≤ T.headCnt + tvlogSize ∧
    (T.curWrtSet = none → ¬ tvlogWraps T.tailCnt wsEntrySize) ∧
    (tvlogWraps (lockStart T) (tvlogEntrySize size) →
      locked = true ∧ tvlogBogusSize (lockStart T) < 2 ^ 16)

instance (T : Tvlog) (size : ℕ) (locked : Bool) : Decidable (LockFits T size locked) :=
  inferInstanceAs (Decidable (_ ∧ _ ∧ _))

theorem tvlogEntrySize_eq {n : ℕ} (h : n < tvlogSize) :
    tvlogEntrySize n = (n + 56 + 63) / 64 * 64 := by
  have hn : n < 2 ^ 20 := h
  rw [tvlogEntrySize, uint, sizeofCpyHdrStruct, Nat.mod_eq_of_lt (by omega),
    alignUintToCacheline_eq (by omega)]

/-- An entry that does not wrap ends inside the ring. -/
theorem end_lt_of_not_wraps {t n : ℕ} (hn : 0 < n) (hlt : n < tvlogSize)
    (h : ¬ tvlogWraps t n) : tvlogIndex t + n < tvlogSize := by
  rw [tvlogWraps, tvlogIndex, tvlogIndex, Ring.index_lt_iff hn hlt] at h
  rw [tvlogIndex]
  omega

/-- The padding behind an entry that ends inside the ring stays inside the ring
and is short. -/
theorem addExtraPadding_le {t n : ℕ} (b : Bool) (h : tvlogIndex t + n < tvlogSize) :
    tvlogIndex t + (n + addExtraPadding t n sizeofWrtSetStruct b) ≤ tvlogSize ∧
      addExtraPadding t n sizeofWrtSetStruct b ≤ 192 := by
  have halign : alignUintToCacheline (uint (sizeofWrtSetStruct + sizeofCpyHdrStruct)) = 192 := by
    decide
  have hend : (t + n) % tvlogSize = t % tvlogSize + n := Ring.index_add h
  rw [addExtraPadding, halign]
  split
  · rename_i hp
    obtain ⟨-, hp⟩ := hp
    simp only [tvlogIndex] at hp h ⊢
    by_cases hw : t % tvlogSize + (n + 192) < tvlogSize
    · rw [Nat.add_assoc, Ring.index_add hw] at hp
      omega
    · omega
  · omega

/-- The entry size of an object, by whether its 32-bit sum wraps. -/
theorem tvlogEntrySize_cases {n : ℕ} (hu : n < 2 ^ 32) :
    n + 119 < 2 ^ 32 ∧ tvlogEntrySize n = (n + 119) / 64 * 64 ∨
      2 ^ 32 ≤ n + 119 ∧ tvlogEntrySize n = (n + 119 - 2 ^ 32) / 64 * 64 := by
  rw [tvlogEntrySize, alignUintToCacheline, sizeofCpyHdrStruct, cacheLineSize]
  simp only [uint]
  omega

/-- The header that `tvlog_alloc` writes records the size of the entry with its
padding, when the entry ends inside the ring.  The 16 bits of `padding_size` hold the
difference of the two sizes also when the 32-bit entry size has wrapped. -/
theorem getEntrySize_allocHdr {t size : ℕ} (b : Bool) (hu : size < 2 ^ 32)
    (h : tvlogIndex t + tvlogEntrySize size < tvlogSize) :
    getEntrySize (tvlogAllocHdr t size b) = tvlogEntrySize size +
      addExtraPadding t (tvlogEntrySize size) sizeofWrtSetStruct b := by
  have hp := (addExtraPadding_le b h).2
  have hlt : tvlogEntrySize size < 2 ^ 20 := (Nat.le_add_left _ _).trans_lt h
  have he := tvlogEntrySize_cases hu
  rw [getEntrySize, tvlogAllocHdr]
  simp only [uint, ushort]
  omega

/-- The bytes that an entry for an object takes in the log, in unbounded arithmetic:
header and object rounded up to whole cache lines, and the padding behind them. -/
def tvlogSpan (tailCnt objSize : ℕ) (bogus : Bool) : ℕ :=
  (objSize + sizeofCpyHdrStruct + (cacheLineSize - 1)) / cacheLineSize * cacheLineSize +
    addExtraPadding tailCnt (tvlogEntrySize objSize) sizeofWrtSetStruct bogus

/-- The headers that `tvlog_alloc` writes record what they span: the filler, if there
is one, the bytes by which the tail moves over it, and the entry the bytes it takes. -/
def AllocSizes (T : Tvlog) (objSize : ℕ) (bogus : Bool) (type : ObjType) : Prop :=
  let (T', h, bogus') := tvlogAlloc T objSize bogus type
  (T'.tailCnt ≠ T.tailCnt → ∃ f, tvlogAt T' T.tailCnt = some f ∧
      T.tailCnt + getEntrySize f = T'.tailCnt) ∧
    tvlogAt T' T'.tailCnt = some h ∧
    getEntrySize h = tvlogSpan T'.tailCnt objSize bogus'

theorem getEntrySize_filler {n : ℕ} (hn : n ≤ tvlogSize) :
    getEntrySize ⟨0, ushort n⟩ = n ↔ n < 2 ^ 16 := by
  have hn' : n ≤ 2 ^ 20 := hn
  simp only [getEntrySize, uint, ushort]
  omega

/-- The entry spans what its header records, if and only if the 32-bit entry size does
not wrap. -/
theorem getEntrySize_eq_span {t size : ℕ} (b : Bool) (hu : size < 2 ^ 32)
    (h : tvlogIndex t + tvlogEntrySize size < tvlogSize) :
    getEntrySize (tvlogAllocHdr t size b) = tvlogSpan t size b ↔ size + 119 < 2 ^ 32 := by
  rw [getEntrySize_allocHdr b hu h, tvlogSpan, Nat.add_right_cancel_iff, sizeofCpyHdrStruct,
    cacheLineSize]
  have he := tvlogEntrySize_cases hu
  omega

/-- For a tail on a cache line and an object size that `tvlog_alloc` accepts, the headers
record what they span if and only if the entry ends inside the ring or the rest of the
ring is shorter than the 2^16 bytes that `padding_size` of the filler can hold, and the
32-bit entry size of the object does not wrap. -/
theorem tvlogAlloc_sizes_iff (T : Tvlog) {objSize : ℕ} (bogus : Bool) (type : ObjType)
    (ht : cacheLineSize ∣ T.tailCnt) (hu : objSize < 2 ^ 32)
    (hacc : tvlogEntrySize objSize < tvlogSize) :
    AllocSizes T objSize bogus type ↔
      (tvlogIndex T.tailCnt + tvlogEntrySize objSize < tvlogSize ∨
        tvlogSize < tvlogIndex T.tailCnt + 2 ^ 16) ∧ objSize + 119 < 2 ^ 32 := by
  have hidx : tvlogIndex T.tailCnt < tvlogSize := Nat.mod_lt _ (by decide)
  by_cases hw : tvlogWraps T.tailCnt (tvlogEntrySize objSize)
  · -- the filler takes the rest of the ring, and the entry starts at index 0
    have hend : (T.tailCnt + tvlogBogusSize T.tailCnt) % tvlogSize = 0 :=
      Ring.index_end (Nat.add_sub_cancel' hidx.le)
    have hpos : 0 < tvlogIndex T.tailCnt := (Nat.zero_le _).trans_lt hw
    have hcl : sizeofCpyHdrStruct ≤ tvlogIndex T.tailCnt := by
      have h64 : 64 ∣ tvlogIndex T.tailCnt := (Nat.dvd_mod_iff (by decide)).mpr ht
      exact (show 56 ≤ 64 by decide).trans (Nat.le_of_dvd hpos h64)
    have hnot : ¬ tvlogIndex T.tailCnt + tvlogEntrySize objSize < tvlogSize := by
      intro hlt
      rw [tvlogWraps, tvlogIndex, tvlogIndex, Ring.index_add hlt] at hw
      omega
    have hbogus : tvlogBogusSize T.tailCnt < 2 ^ 16 ↔
        tvlogSize < tvlogIndex T.tailCnt + 2 ^ 16 := by
      rw [tvlogBogusSize]
      omega
    have hne : T.tailCnt + tvlogBogusSize T.tailCnt ≠ T.tailCnt := by
      rw [tvlogBogusSize]
      omega
    have hfill := getEntrySize_filler (show tvlogBogusSize T.tailCnt ≤ tvlogSize from Nat.sub_le _ _)
    have hspan := getEntrySize_eq_span (t := T.tailCnt + tvlogBogusSize T.tailCnt) true hu
      (by rwa [tvlogIndex, hend, Nat.zero_add])
    rw [AllocSizes, tvlogAlloc, tvlogMakeRoom, if_pos hw]
    simp only [tvlogPut, tvlogPutBogus, tvlogAt, hne, ne_eq, not_false_eq_true, forall_const,
      if_true, true_and, hspan, or_iff_right hnot, ← hbogus]
    have hstart : tvlogIndex (T.tailCnt + tvlogBogusSize T.tailCnt) = 0 := hend
    rw [hstart, if_neg hpos.ne', if_neg (by omega)]
    simp only [Option.some.injEq, exists_eq_left', Nat.add_left_cancel_iff]
    rw [hfill]
  · have hlt : tvlogIndex T.tailCnt + tvlogEntrySize objSize < tvlogSize := by
      rcases Nat.eq_zero_or_pos (tvlogEntrySize objSize) with h0 | hpos
      · rwa [h0]
      · exact end_lt_of_not_wraps hpos hacc hw
    rw [AllocSizes, tvlogAlloc, tvlogMakeRoom, if_neg hw]
    simp only [tvlogPut, tvlogAt, ne_eq, not_true, false_implies, if_true, true_and, hlt,
      true_or, getEntrySize_eq_span bogus hu hlt]

theorem tvlogAlloc_sizes_iff_create :
    AllocSizes tvlogCreate 100 false .copy ↔
      (tvlogIndex tvlogCreate.tailCnt + tvlogEntrySize 100 < tvlogSize ∨
        tvlogSize < tvlogIndex tvlogCreate.tailCnt + 2 ^ 16) ∧ 100 + 119 < 2 ^ 32 :=
  tvlogAlloc_sizes_iff tvlogCreate false .copy (by decide) (by decide) (by decide)

/-- A transaction locks an object of 512 KB and then a second one.  The second copy does
not fit behind the first, and the filler that takes the remaining 524096 bytes records
65344. -/
theorem tvlogAlloc_filler_truncated :
    ¬ ∀ (T : Tvlog) (objSize : ℕ) (bogus : Bool) (type : ObjType),
      cacheLineSize ∣ T.tailCnt → objSize < 2 ^ 32 → tvlogEntrySize objSize < tvlogSize →
        AllocSizes T objSize bogus type := by
  intro hall
  obtain ⟨hfiller, -⟩ := hall (tvlogLock tvlogCreate (2 ^ 19) true) (2 ^ 19) false .copy
    (by decide) (by decide) (by decide)
  obtain ⟨f, hf, hlen⟩ := hfiller (by decide)
  have h : f = ⟨0, 65344⟩ := by
    rw [← Option.some_inj, ← hf]
    decide +kernel
  subst h
  exact absurd hlen (by decide)

theorem dvd_allocSize {t n : ℕ} (b : Bool) (ht : 64 ∣ t) (hn : 64 ∣ n) :
    64 ∣ n + addExtraPadding t n sizeofWrtSetStruct b := by
  refine Nat.dvd_add hn ?_
  rw [addExtraPadding]
  split
  · have hidx : 64 ∣ (t + n) % tvlogSize :=
      (Nat.dvd_mod_iff (by decide)).mpr (Nat.dvd_add ht hn)
    exact Nat.dvd_sub (by decide) hidx
  · exact Nat.dvd_zero _

theorem dvd_tvlogEntrySize (n : ℕ) : 64 ∣ tvlogEntrySize n := dvd_alignUintToCacheline _

/-- A header written at the tail inside the ring changes no byte of the log. -/
theorem sameBytes_put {T : Tvlog} {n : ℕ} (h : ObjHdr) (type : ObjType) {c : ℕ} (hn : 0 < n)
    (hroom : T.tailCnt + n ≤ c + tvlogSize) (hend : tvlogIndex T.tailCnt + n ≤ tvlogSize) :
    SameBytes T (tvlogPut T h type n) c T.tailCnt := by
  intro k h1 h2
  have hdis := Ring.append_disjoint h1 h2 hroom hend
  have hne : tvlogIndex k ≠ tvlogIndex T.tailCnt := by
    intro heq
    exact hdis ⟨heq.ge, by rw [← tvlogIndex, heq, tvlogIndex]; omega⟩
  refine ⟨?_, Function.update_of_ne hne _ _, rfl⟩
  simp only [tvlogPut, if_neg hne]
  rw [if_neg]
  exact fun h => hdis ⟨h.1.le, h.2⟩

/-- The log with an open write set that starts at `s`, has the entries `os` and
counts `k` of them.  While a lock is under way the count lags behind. -/
structure OpenShape (T : Tvlog) (s : ℕ) (es os : List (ℕ × ObjHdr)) (k : ℕ) : Prop where
  committed : CommittedSets T T.headCnt es s
  cur : T.curWrtSet = some (tvlogIndex s)
  ws : T.wss (tvlogIndex s) = ⟨maxVersion, k, s⟩
  type : T.types (tvlogIndex s) = .wrtSet
  walk : TvWalk T s os T.tailCnt
  nonempty : s < T.tailCnt
  entries : ∀ p ∈ es ++ os, EntryOk T p
  aligned : 64 ∣ T.headCnt
  cap : T.tailCnt ≤ T.headCnt + tvlogSize

/-- When the count is right the log has its shape. -/
theorem OpenShape.logShape {T : Tvlog} {s k : ℕ} {es os : List (ℕ × ObjHdr)}
    (h : OpenShape T s es os k) (hk : os.length = k + 1) : LogShape T s es os := by
  refine ⟨h.committed, ?_, h.entries, h.aligned, h.cap⟩
  rw [OpenSet, h.cur]
  refine ⟨rfl, by rw [h.ws], ?_⟩
  have hw := h.walk
  cases os with
  | nil => simp at hk
  | cons p objs =>
    obtain ⟨x, e⟩ := p
    have hx : x = s := hw.1
    subst hx
    refine ⟨e, objs, rfl, hw, h.type, ?_, by rw [h.ws]⟩
    rw [h.ws]
    simp only [List.length_cons] at hk
    simp only
    omega

theorem LogShape.tail_aligned {T : Tvlog} {s : ℕ} {es os : List (ℕ × ObjHdr)}
    (h : LogShape T s es os) : 64 ∣ T.tailCnt :=
  walk_aligned (h.committed.walk.append h.openSet.walk) h.aligned
    fun p hp => (h.entries p hp).aligned

theorem OpenShape.tail_aligned {T : Tvlog} {s k : ℕ} {es os : List (ℕ × ObjHdr)}
    (h : OpenShape T s es os k) : 64 ∣ T.tailCnt :=
  walk_aligned (h.committed.walk.append h.walk) h.aligned fun p hp => (h.entries p hp).aligned

theorem LogShape.openShape {T : Tvlog} {s : ℕ} {es os : List (ℕ × ObjHdr)}
    (h : LogShape T s es os) (hcur : T.curWrtSet ≠ none) :
    ∃ k, os.length = k + 1 ∧ OpenShape T s es os k := by
  have ho := h.openSet
  rw [OpenSet] at ho
  split at ho
  · contradiction
  · rename_i i hi
    obtain ⟨rfl, hclk, e, objs, rfl, hws⟩ := ho
    refine ⟨objs.length, by simp, h.committed, hi, ?_, hws.type, hws.walk, hws.lt, h.entries,
      h.aligned, h.cap⟩
    exact WrtSet.ext hclk hws.numObjs hws.start

/-- Writing a header at the tail without moving it. -/
theorem OpenShape.put {T : Tvlog} {s k n : ℕ} {es os : List (ℕ × ObjHdr)}
    (h : OpenShape T s es os k) (hd : ObjHdr) (type : ObjType) (hn : 0 < n)
    (hroom : T.tailCnt + n ≤ T.headCnt + tvlogSize)
    (hend : tvlogIndex T.tailCnt + n ≤ tvlogSize) :
    OpenShape (tvlogPut T hd type n) s es os k := by
  have hsame := sameBytes_put hd type hn hroom hend
  have hle := h.committed.le
  obtain ⟨-, h2, h3⟩ := hsame s hle h.nonempty
  refine ⟨?_, h.cur, by rw [h3, h.ws], by rw [h2, h.type], ?_, h.nonempty, ?_, h.aligned,
    h.cap⟩
  · exact (hsame.mono (le_refl _) h.nonempty.le).committedSets h.committed
  · exact (hsame.mono hle (le_refl _)).walk h.walk
  · intro p hp
    refine ⟨(h.entries p hp).aligned, fun hty => (h.entries p hp).size ?_⟩
    have hw := (h.committed.walk.append h.walk).mem hp
    rw [(hsame p.1 hw.1 (by omega)).2.1] at hty
    exact hty

/-- Writing a header at the tail and moving the tail over its entry. -/
theorem OpenShape.append {T : Tvlog} {s k n : ℕ} {es os : List (ℕ × ObjHdr)}
    (h : OpenShape T s es os k) (hd : ObjHdr) (type : ObjType) (hn : 0 < n)
    (hnle : n ≤ getEntrySize hd) (hroom : T.tailCnt + getEntrySize hd ≤ T.headCnt + tvlogSize)
    (hend : tvlogIndex T.tailCnt + getEntrySize hd ≤ tvlogSize)
    (hdvd : 64 ∣ getEntrySize hd) (hok : type = .copy ∨ type = .free →
      hd.objSize < tvlogSize ∧ tvlogEntrySize hd.objSize ≤ getEntrySize hd) :
    OpenShape { tvlogPut T hd type n with tailCnt := T.tailCnt + getEntrySize hd } s es
      (os ++ [(T.tailCnt, hd)]) k := by
  have hp := h.put hd type hn (by omega) (by omega)
  have hle := h.committed.le
  have hlt := h.nonempty
  refine ⟨?_, h.cur, hp.ws, hp.type, ?_, by simp only; omega, ?_, h.aligned, hroom⟩
  · exact SameBytes.committedSets (T := tvlogPut T hd type n)
      (fun _ _ _ => ⟨rfl, rfl, rfl⟩) hp.committed
  · refine h.walk.put (by omega) (by omega) hend ?_ ?_
    · exact if_pos rfl
    · intro i hi
      have hne : i ≠ tvlogIndex T.tailCnt := by
        rintro rfl
        exact hi ⟨le_refl _, by rw [← tvlogIndex]; omega⟩
      simp only [tvlogPut, if_neg hne]
      refine if_neg fun hc => hi ⟨hc.1.le, ?_⟩
      rw [← tvlogIndex]
      omega
  · intro p hpm
    rw [← List.append_assoc] at hpm
    rcases List.mem_append.mp hpm with hpm | hpm
    · exact ⟨(hp.entries p hpm).aligned, (hp.entries p hpm).size⟩
    · rw [List.mem_singleton] at hpm
      subst hpm
      refine ⟨hdvd, fun hty => hok ?_⟩
      have : (tvlogPut T hd type n).types (tvlogIndex T.tailCnt) = type :=
        Function.update_self _ _ _
      rw [← this]
      exact hty

/-- Counting entries of the open write set. -/
theorem OpenShape.count {T : Tvlog} {s k : ℕ} {es os : List (ℕ × ObjHdr)}
    (h : OpenShape T s es os k) (j : ℕ) :
    OpenShape { T with wss := Function.update T.wss (tvlogIndex s) ⟨maxVersion, j, s⟩ } s es os
      j := by
  refine ⟨?_, h.cur, Function.update_self _ _ _, h.type, h.walk, h.nonempty,
    fun p hp => ⟨(h.entries p hp).aligned, (h.entries p hp).size⟩, h.aligned, h.cap⟩
  have hle := h.committed.le
  have hlt := h.nonempty
  have hcap := h.cap
  refine SameBytes.committedSets (T := T) (fun c h1 h2 => ⟨rfl, rfl, ?_⟩) h.committed
  refine Function.update_of_ne (fun heq => ?_) _ _
  have := Ring.index_inj (n := tvlogSize) (h := T.headCnt) h1 (by omega) hle (by omega) heq
  omega

/-- Opening a write set. -/
theorem tvlogOpenWs_spec {T : Tvlog} {s : ℕ} {es os : List (ℕ × ObjHdr)}
    (hs : LogShape T s es os) (hroom : lockStart T ≤ T.headCnt + tvlogSize)
    (hws : T.curWrtSet = none → ¬ tvlogWraps T.tailCnt wsEntrySize) :
    ∃ os' k, os'.length = k + 1 ∧ os'.tail = os.tail ∧
      OpenShape (tvlogOpenWs T).1 s es os' k ∧
      SameBytes T (tvlogOpenWs T).1 T.headCnt T.tailCnt ∧
      (tvlogOpenWs T).2 = false ∧ (tvlogOpenWs T).1.tailCnt = lockStart T ∧
      (tvlogOpenWs T).1.headCnt = T.headCnt ∧ T.tailCnt ≤ lockStart T := by
  cases hcur : T.curWrtSet with
  | some i =>
    obtain ⟨k, hk, ho⟩ := hs.openShape (by simp [hcur])
    refine ⟨os, k, hk, rfl, ?_⟩
    simp only [tvlogOpenWs, lockStart, hcur]
    exact ⟨ho, fun _ _ _ => ⟨rfl, rfl, rfl⟩, trivial, trivial, trivial, le_refl _⟩
  | none =>
    have hnw := hws hcur
    have hacc : tvlogAccepts sizeofWrtSet := by decide
    have hpos : 0 < wsEntrySize ∧ wsEntrySize < tvlogSize := by decide
    have hlt := end_lt_of_not_wraps hpos.1 hpos.2 hnw
    have hlen : getEntrySize (tvlogAllocHdr T.tailCnt sizeofWrtSet false) = wsEntrySize +
        addExtraPadding T.tailCnt wsEntrySize sizeofWrtSetStruct false :=
      getEntrySize_allocHdr false (hacc.1.trans (by decide)) hlt
    have hpad := (addExtraPadding_le false hlt).1
    have h56 : sizeofCpyHdrStruct ≤ wsEntrySize := by decide
    have ho := hs.openSet
    rw [OpenSet, hcur] at ho
    obtain ⟨rfl, rfl⟩ := ho
    simp only [lockStart, hcur] at hroom ⊢
    -- the new header is written behind the committed sets
    have hsame := sameBytes_put (T := T) (tvlogAllocHdr T.tailCnt sizeofWrtSet false) .wrtSet
      (n := sizeofCpyHdrStruct) (c := T.headCnt) (by decide) (by omega) (by omega)
    have hT : tvlogOpenWs T = ({ tvlogPut T (tvlogAllocHdr T.tailCnt sizeofWrtSet false)
          .wrtSet sizeofCpyHdrStruct with
        wss := Function.update T.wss (tvlogIndex T.tailCnt) ⟨maxVersion, 0, T.tailCnt⟩
        curWrtSet := some (tvlogIndex T.tailCnt)
        tailCnt := T.tailCnt + (wsEntrySize +
          addExtraPadding T.tailCnt wsEntrySize sizeofWrtSetStruct false) }, false) := by
      have hmr : tvlogMakeRoom T (tvlogEntrySize sizeofWrtSet) false = (T, false) := if_neg hnw
      simp only [tvlogOpenWs, hcur, tvlogAlloc, hmr, hlen]
      rfl
    have hne : ∀ k, T.headCnt ≤ k → k < T.tailCnt →
        tvlogIndex k ≠ tvlogIndex T.tailCnt := by
      intro k h1 h2 heq
      have := Ring.index_inj (n := tvlogSize) (h := T.headCnt) h1 (by omega) (by omega)
        (by omega) heq
      omega
    have hle := hs.committed.le
    have hsame' : SameBytes T (tvlogOpenWs T).1 T.headCnt T.tailCnt := by
      intro k h1 h2
      obtain ⟨h3, h4, -⟩ := hsame k h1 h2
      rw [hT]
      exact ⟨h3, h4, Function.update_of_ne (hne k h1 h2) _ _⟩
    refine ⟨[(T.tailCnt, tvlogAllocHdr T.tailCnt sizeofWrtSet false)], 0, rfl, rfl, ?_, hsame',
      by rw [hT], by rw [hT], by rw [hT]; rfl, by omega⟩
    have hcommitted := hsame'.committedSets hs.committed
    rw [hT] at hcommitted ⊢
    refine ⟨hcommitted, rfl, Function.update_self _ _ _, Function.update_self _ _ _, ?_,
      by simp only; omega, ?_, hs.aligned, hroom⟩
    · exact ⟨rfl, if_pos rfl, by omega, by rw [← tvlogIndex]; omega, by simp only [hlen]; rfl⟩
    · intro p hp
      rcases List.mem_append.mp hp with hp | hp
      · obtain ⟨h1, h2, -, h4⟩ := hs.committed.walk.mem hp
        have hok := hs.entries p (List.mem_append_left _ hp)
        refine ⟨hok.aligned, fun hty => hok.size ?_⟩
        rw [← (hsame p.1 h1 (by omega)).2.1]
        exact hty
      · rw [List.mem_singleton] at hp
        subst hp
        refine ⟨hlen ▸ dvd_allocSize false hs.tail_aligned (dvd_tvlogEntrySize _), fun hty => ?_⟩
        have hty' : Function.update T.types (tvlogIndex T.tailCnt) ObjType.wrtSet
            (tvlogIndex T.tailCnt) = .copy ∨ Function.update T.types (tvlogIndex T.tailCnt)
            ObjType.wrtSet (tvlogIndex T.tailCnt) = .free := hty
        rw [Function.update_self] at hty'
        simp at hty'

/-- `tvlog_append_end` on an entry that `tvlog_alloc` has written at the tail. -/
theorem OpenShape.appendEnd {T : Tvlog} {s k : ℕ} {es os : List (ℕ × ObjHdr)}
    (h : OpenShape T s es os k) (hd : ObjHdr) (b : Bool) (hacc : tvlogAccepts hd.objSize)
    (hle : tvlogEntrySize hd.objSize ≤ getEntrySize hd) (hdvd : 64 ∣ getEntrySize hd)
    (hroom : T.tailCnt + getEntrySize hd ≤ T.headCnt + tvlogSize)
    (hend : tvlogIndex T.tailCnt + getEntrySize hd ≤ tvlogSize) :
    OpenShape (tvlogAppendEnd T hd b) s es (os ++ [(T.tailCnt, hd)])
      (k + if b then 2 else 1) := by
  have he := tvlogEntrySize_eq hacc.1
  have h56 : sizeofCpyHdrStruct + hd.objSize ≤ getEntrySize hd := by
    rw [sizeofCpyHdrStruct]
    omega
  have hput := (h.append hd .copy (n := sizeofCpyHdrStruct + hd.objSize)
    (by rw [sizeofCpyHdrStruct]; omega) h56 hroom hend hdvd
    (fun _ => ⟨hacc.1, hle⟩)).count (k + if b then 2 else 1)
  have hT : tvlogAppendEnd T hd b = { tvlogPut T hd .copy (sizeofCpyHdrStruct + hd.objSize) with
      tailCnt := T.tailCnt + getEntrySize hd
      wss := Function.update T.wss (tvlogIndex s)
        ⟨maxVersion, k + if b then 2 else 1, s⟩ } := by
    simp only [tvlogAppendEnd, h.cur, h.ws]
  rw [hT]
  exact hput

/-- Where `tvlog_alloc` writes the entry, behind a filler or not. -/
def roomTail (tailCnt entrySize : ℕ) : ℕ :=
  if tvlogWraps tailCnt entrySize then tailCnt + tvlogBogusSize tailCnt else tailCnt

theorem le_roomTail (t n : ℕ) : t ≤ roomTail t n := by
  rw [roomTail]
  split <;> omega

theorem roomTail_le_lockEnd (T : Tvlog) (size : ℕ) :
    roomTail (lockStart T) (tvlogEntrySize size) + tvlogEntrySize size ≤ lockEnd T size := by
  rw [roomTail, lockEnd]
  split <;> omega

theorem tvlogMakeRoom_tailCnt (T : Tvlog) (n : ℕ) (b : Bool) :
    (tvlogMakeRoom T n b).1.tailCnt = roomTail T.tailCnt n := by
  rw [tvlogMakeRoom, roomTail]
  split <;> rfl

/-- The entry does not cross the end of the ring. -/
theorem roomTail_inside {t n : ℕ} (hpos : 0 < n) (hlt : n < tvlogSize) :
    tvlogIndex (roomTail t n) + n ≤ tvlogSize := by
  rw [roomTail]
  split
  · have hidx : tvlogIndex t < tvlogSize := Nat.mod_lt _ (by decide)
    have h0 : tvlogIndex (t + tvlogBogusSize t) = 0 := by
      refine Ring.index_end ?_
      rw [tvlogBogusSize, ← tvlogIndex]
      omega
    omega
  · rename_i hw
    exact (end_lt_of_not_wraps hpos hlt hw).le

/-- What `tvlog_append_begin` leaves behind: the header `hd` of the entry of a lock
of `size` bytes at the tail, and behind it the end of the lock. -/
structure Begun (T T' : Tvlog) (size : ℕ) (hd : ObjHdr) : Prop where
  objSize : hd.objSize = size
  entry : tvlogEntrySize size ≤ getEntrySize hd
  aligned : 64 ∣ getEntrySize hd
  inside : tvlogIndex T'.tailCnt + getEntrySize hd ≤ tvlogSize
  head : T'.headCnt = T.headCnt
  tail : T.tailCnt ≤ T'.tailCnt
  lockEnd : T'.tailCnt + getEntrySize hd = lockEnd T size
  same : SameBytes T T' T.headCnt T.tailCnt

/-- `tvlog_append_begin` for an allowed lock: behind the entries of the open write
set it leaves at most a filler. -/
theorem tvlogAppendBegin_spec {T : Tvlog} {size s : ℕ} {locked : Bool}
    {es os : List (ℕ × ObjHdr)} (hs : LogShape T s es os) (hacc : tvlogAccepts size)
    (hfit : LockFits T size locked) :
    ∃ T' hd b, tvlogAppendBegin T size = (T', hd, b) ∧ (b = true → locked = true) ∧
      (b = false → T'.tailCnt = lockStart T) ∧ Begun T T' size hd ∧
      ∃ os' fill k, OpenShape T' s es os' k ∧ os'.length = (k + if b then 2 else 1) ∧
        os'.tail = os.tail ++ fill ∧ ∀ p ∈ fill, T'.types (tvlogIndex p.1) = .bogus := by
  obtain ⟨hroom, hws, hfill⟩ := hfit
  have hstart : lockStart T ≤ lockEnd T size := by
    rw [lockEnd]
    split <;> omega
  obtain ⟨os, k, hk, hos, ho, hsame, hb, ht, hh, htl⟩ := tvlogOpenWs_spec hs (by omega) hws
  have he := tvlogEntrySize_eq hacc.1
  have hsz : 0 < tvlogEntrySize size ∧ sizeofCpyHdrStruct ≤ tvlogEntrySize size := by
    rw [sizeofCpyHdrStruct]
    omega
  rw [tvlogAppendBegin]
  cases hop : tvlogOpenWs T with
  | mk T₁ b₁ =>
  rw [hop] at ho hb ht hh hsame
  simp only at ho hb ht hh hsame
  subst hb
  simp only [tvlogAlloc]
  rw [lockEnd, ← ht] at hroom
  rw [← ht] at hfill
  by_cases hw : tvlogWraps T₁.tailCnt (tvlogEntrySize size)
  · -- a filler, which the lock then counts
    obtain ⟨rfl, h16⟩ := hfill hw
    rw [if_pos hw] at hroom
    have hidx : tvlogIndex T₁.tailCnt < tvlogSize := Nat.mod_lt _ (by decide)
    have hlen : getEntrySize ⟨0, ushort (tvlogBogusSize T₁.tailCnt)⟩ =
        tvlogBogusSize T₁.tailCnt := by
      simp only [getEntrySize, ushort, uint]
      omega
    have hbs : tvlogIndex T₁.tailCnt + tvlogBogusSize T₁.tailCnt = tvlogSize := by
      rw [tvlogBogusSize]
      omega
    have hdvd : 64 ∣ tvlogBogusSize T₁.tailCnt :=
      Nat.dvd_sub (by decide) ((Nat.dvd_mod_iff (by decide)).mpr ho.tail_aligned)
    have hf := ho.append ⟨0, ushort (tvlogBogusSize T₁.tailCnt)⟩ .bogus
      (n := sizeofCpyHdrStruct) (by decide) (by rw [hlen, sizeofCpyHdrStruct]; omega) (by omega)
      (by omega) (by rw [hlen]; exact hdvd) (by simp)
    rw [hlen] at hf
    have hmr : tvlogMakeRoom T₁ (tvlogEntrySize size) false = (tvlogPutBogus T₁, true) :=
      if_pos hw
    have hT : (tvlogPutBogus T₁).tailCnt = T₁.tailCnt + tvlogBogusSize T₁.tailCnt := rfl
    have hlt : tvlogIndex (tvlogPutBogus T₁).tailCnt + tvlogEntrySize size < tvlogSize := by
      rw [hT, show tvlogIndex _ = 0 from Ring.index_end hbs, Nat.zero_add]
      exact hacc.2
    have hsize := getEntrySize_allocHdr true (hacc.1.trans (by decide)) hlt
    rw [show addExtraPadding _ _ _ true = 0 by simp [addExtraPadding], Nat.add_zero] at hsize
    have hp := OpenShape.put (T := tvlogPutBogus T₁) hf
      (tvlogAllocHdr (tvlogPutBogus T₁).tailCnt size true) .copy (n := sizeofCpyHdrStruct)
      (by decide) (by rw [hT]; show _ ≤ T₁.headCnt + _; omega) (by omega)
    -- neither of the two headers is written into the log so far
    have hsame₁ := sameBytes_put (T := T₁) ⟨0, ushort (tvlogBogusSize T₁.tailCnt)⟩ .bogus
      (n := sizeofCpyHdrStruct) (c := T.headCnt) (by decide) (by omega)
      (by rw [sizeofCpyHdrStruct]; omega)
    have hsame₂ := sameBytes_put (T := tvlogPutBogus T₁)
      (tvlogAllocHdr (tvlogPutBogus T₁).tailCnt size true) .copy (n := sizeofCpyHdrStruct)
      (c := T.headCnt) (by decide) (by rw [hT]; omega) (by omega)
    simp only [hmr]
    refine ⟨_, _, _, rfl, fun _ => trivial, fun hb => (by cases hb), ⟨rfl, hsize.ge, ?_, ?_, hh, ?_, ?_, ?_⟩,
      _, [(T₁.tailCnt, ⟨0, ushort (tvlogBogusSize T₁.tailCnt)⟩)], k, hp, ?_, ?_, ?_⟩
    · rw [hsize]
      exact dvd_tvlogEntrySize _
    · rw [hsize]
      exact hlt.le
    · show T.tailCnt ≤ T₁.tailCnt + tvlogBogusSize T₁.tailCnt
      omega
    · rw [hsize, lockEnd, ← ht, if_pos hw]
      rfl
    · exact (hsame.trans (hsame₁.mono (le_refl _) (by omega))).trans
        (hsame₂.mono (le_refl _) (by omega))
    · simp [hk]
    · rw [← hos]
      refine List.tail_append_of_ne_nil ?_
      rintro rfl
      simp at hk
    · intro p hp
      rw [List.mem_singleton] at hp
      subst hp
      have hle := hs.committed.le.trans hs.openSet.le
      rw [(hsame₂ T₁.tailCnt (by omega) (by omega)).2.1]
      exact Function.update_self _ _ _
  · -- no filler
    rw [if_neg hw] at hroom
    have hlt := end_lt_of_not_wraps hsz.1 hacc.2 hw
    have hsize := getEntrySize_allocHdr false (hacc.1.trans (by decide)) hlt
    have hpad := (addExtraPadding_le false hlt).1
    have hmr : tvlogMakeRoom T₁ (tvlogEntrySize size) false = (T₁, false) := if_neg hw
    have hp := ho.put (tvlogAllocHdr T₁.tailCnt size false) .copy (n := sizeofCpyHdrStruct)
      (by decide) (by omega) (by omega)
    simp only [hmr]
    refine ⟨_, _, _, rfl, fun hb => (by cases hb), fun _ => ht,
      ⟨rfl, by rw [hsize]; exact Nat.le_add_right _ _, ?_, ?_, hh, ?_, ?_, ?_⟩, os, [], k, hp, hk, by rw [hos, List.append_nil], by simp⟩
    · rw [hsize]
      exact dvd_allocSize false ho.tail_aligned (dvd_tvlogEntrySize _)
    · rw [hsize]
      exact hpad
    · show T.tailCnt ≤ T₁.tailCnt
      omega
    · rw [hsize, lockEnd, ← ht, if_neg hw]
      rfl
    · refine hsame.trans ((sameBytes_put _ _ (by decide) (by omega) (by omega)).mono
        (le_refl _) (by omega))

/-- An allowed lock keeps the invariant. -/
theorem tvlogInv_lock {T : Tvlog} {size : ℕ} {locked : Bool} (h : TvlogInv T)
    (hacc : tvlogAccepts size) (hfit : LockFits T size locked) :
    TvlogInv (tvlogLock T size locked) := by
  obtain ⟨s, es, os, hs⟩ := h
  obtain ⟨T', hd, b, hT, hb, -, hbeg, os', -, k, ho, hk, -⟩ := tvlogAppendBegin_spec hs hacc hfit
  rw [tvlogLock, hT]
  cases locked with
  | false =>
    have hbf : b = false := by
      cases b with
      | false => rfl
      | true => exact absurd (hb rfl) (by simp)
    rw [hbf] at hk
    exact ⟨s, es, os', ho.logShape hk⟩
  | true =>
    have hroom := hfit.1
    rw [← hbeg.lockEnd, ← hbeg.head] at hroom
    have hend := ho.appendEnd hd b (hbeg.objSize ▸ hacc) (hbeg.objSize ▸ hbeg.entry)
      hbeg.aligned hroom hbeg.inside
    refine ⟨s, es, _, hend.logShape ?_⟩
    rw [List.length_append, hk]
    rfl

/-- The bytes that an allowed lock initialises belong to no entry of the log. -/
theorem tvlogAppendBegin_disjoint {T T' : Tvlog} {size : ℕ} {locked : Bool} {hd : ObjHdr}
    {b : Bool} (h : TvlogInv T) (hacc : tvlogAccepts size) (hfit : LockFits T size locked)
    (hT : tvlogAppendBegin T size = (T', hd, b)) {c k : ℕ} (hc : T.headCnt ≤ c)
    (hct : c < T.tailCnt) (hk : T.tailCnt ≤ k) (hk' : k < T'.tailCnt + getEntrySize hd) :
    tvlogIndex k ≠ tvlogIndex c := by
  obtain ⟨s, es, os, hs⟩ := h
  obtain ⟨T₁, hd₁, b₁, hT₁, -, -, hbeg, -⟩ := tvlogAppendBegin_spec hs hacc hfit
  rw [hT, Prod.mk.injEq, Prod.mk.injEq] at hT₁
  obtain ⟨rfl, rfl, -⟩ := hT₁
  have hroom := hfit.1
  rw [hbeg.lockEnd] at hk'
  intro heq
  have := Ring.index_inj (n := tvlogSize) (h := T.headCnt) (by omega) (by omega) hc (by omega) heq
  omega

end TimeStone
