/-
What `tvlog_reclaim_x` does to the entries of a transient version log.

The two loops of `tvlog_reclaim_x` may stop in the middle of a write set and go back
to its start, and a best-effort pass may move `prev_head_cnt` backwards, so an entry
is visited any number of times.  What it leaves behind are the status bits of the
copies: a checkpointed copy is detached, and the copy of a freed object is marked.

Here the log is the list of its write sets, as the loops walk over them, and the
headers of the entries are maps from counters.  It has no capacity: that no write set runs over
one in use, and that every filler is counted with the entries of its write set, is assumed of
the runs.  The clocks that other threads store
into the copies, and the current master of an object, are arbitrary in every call,
and so are the clocks of the checkpoint.  `trace` records the calls of
`ckptlog_enq`, the calls of `ckptlog_enq_tombstone`, and the marks on a checkpoint
entry.

* `reclaim_once` — in every state of every run a copy has been checkpointed at most
  once and a freed copy has at most one tombstone, and exactly one as soon as
  `head_cnt` is behind its write set;
* `tvlogReclaimX_agrees` — on a log whose bytes parse as these write sets,
  the two loops stop where those over the ring do.
-/
import TimeStone.TvlogParse

namespace TimeStone.TvlogReclaim

/-- The status of an entry (`obj_hdr.status`). -/
inductive Status
  | none
  | tombstoneMarked
  | detached
  deriving DecidableEq

/-- A write set: where it starts, its clock, and the counters of its entries. -/
structure WriteSet where
  start : ℕ
  wrtClk : ℕ
  entries : List ℕ
  deriving DecidableEq

/-- What is done for the entry at a counter. -/
inductive Event
  | ckptEnq (cnt : ℕ)
  | enqTombstone (cnt : ℕ)
  | markTombstone (cnt : ℕ)
  deriving DecidableEq

/-- The part of the state that the loops of `tvlog_reclaim_x` change as they visit
the entries. -/
structure Marks where
  status : ℕ → Status
  trace : List Event

/-- A transient version log.  `sets` are the committed write sets from `headCnt` on,
`cur` is the open one behind them.  `types` and `clks` are the type and the
`__wrt_clk` in the header at a counter; `passed` are the write sets that
`head_cnt` has left behind. -/
structure State extends Marks where
  headCnt : ℕ
  prevHeadCnt : ℕ
  tailCnt : ℕ
  sets : List WriteSet
  cur : Option WriteSet
  types : ℕ → ObjType
  clks : ℕ → ℕ
  passed : List WriteSet

/-- An empty log. -/
def initial : State where
  status := fun _ => .none
  trace := []
  headCnt := 0
  prevHeadCnt := 0
  tailCnt := 0
  sets := []
  cur := none
  types := fun _ => .bogus
  clks := fun _ => 0
  passed := []

/-- What a call of `tvlog_reclaim_x` reads of the copy at a counter and of its
object: `wrt_clk_prev` in the first and in the second loop, and whether the current
master is the original one. -/
structure Reads where
  prev₁ : ℕ → ℕ
  prev₂ : ℕ → ℕ
  isOrgAct : ℕ → Bool

/-- One entry in the first loop; `none` when the loop stops there. -/
def reclaimEntry (B : ℕ) (types : ℕ → ObjType) (mode : TvlogMode) (r : Reads) (ckptSClk : ℕ)
    (cnt : ℕ) (m : Marks) : Option Marks :=
  match types cnt with
  | .copy => if mode = .bestEffort ∧ gteClock B (r.prev₁ cnt) ckptSClk then none else some m
  | .free =>
    if m.status cnt = .tombstoneMarked then some m
    else some {
      status := Function.update m.status cnt .tombstoneMarked
      trace := m.trace ++
        [if r.isOrgAct cnt then .enqTombstone cnt else .markTombstone cnt] }
  | .bogus | .wrtSet => some m

/-- One entry in the second loop; `none` when the loop stops there. -/
def ckptEntry (B : ℕ) (types : ℕ → ObjType) (clks : ℕ → ℕ) (mode : TvlogMode) (r : Reads)
    (ckptSClk lastCkptClk : ℕ) (cnt : ℕ) (m : Marks) : Option Marks :=
  if types cnt ≠ .copy then some m
  else if m.status cnt ≠ .detached ∧
      atBorderline B (clks cnt) (r.prev₂ cnt) ckptSClk lastCkptClk then
    match mode with
    | .ckpt => some {
        status := Function.update m.status cnt .detached
        trace := m.trace ++ [.ckptEnq cnt] }
    | .bestEffort => none
  else some m

/-- `ws_for_each` with a body that may stop it. -/
def wsForEach (body : ℕ → Marks → Option Marks) : List ℕ → Marks → Bool × Marks
  | [], m => (true, m)
  | cnt :: cnts, m =>
    match body cnt m with
    | none => (false, m)
    | some m' => wsForEach body cnts m'

/-- A loop over write sets: those that it has passed, those from where it stops, and
the marks it leaves.  It goes back to the start of a write set in which it stops.
Behind the committed write sets comes the tail, or the open write set, whose clock
is `MAX_VERSION`; both loops stop there. -/
def wsLoop (stop : WriteSet → Bool) (body : ℕ → Marks → Option Marks) :
    List WriteSet → Marks → List WriteSet × List WriteSet × Marks
  | [], m => ([], [], m)
  | ws :: sets, m =>
    if stop ws then ([], ws :: sets, m)
    else match wsForEach body ws.entries m with
      | (false, m') => ([], ws :: sets, m')
      | (true, m') =>
        let (passed, rest, m'') := wsLoop stop body sets m'
        (ws :: passed, rest, m'')

/-- Where the write set behind the committed ones starts. -/
def endCnt (s : State) : ℕ :=
  match s.cur with
  | none => s.tailCnt
  | some ws => ws.start

/-- Where a list of write sets starts. -/
def startCnt (s : State) : List WriteSet → ℕ
  | [] => endCnt s
  | ws :: _ => ws.start

/-- The first loop of `tvlog_reclaim_x`. -/
def reclaimLoop (B : ℕ) (s : State) (mode : TvlogMode) (r : Reads) (ckptSClk : ℕ) :
    List WriteSet × List WriteSet × Marks :=
  wsLoop (fun ws => decide (ws.start = s.prevHeadCnt ∨ ws.wrtClk = maxVersion))
    (reclaimEntry B s.types mode r ckptSClk) s.sets s.toMarks

/-- The second loop of `tvlog_reclaim_x`, over the write sets behind the first. -/
def ckptLoop (B : ℕ) (s : State) (mode : TvlogMode) (r : Reads) (ckptSClk lastCkptClk : ℕ)
    (sets : List WriteSet) (m : Marks) : List WriteSet × List WriteSet × Marks :=
  wsLoop (fun ws => decide (gteClock B ws.wrtClk ckptSClk ∨ ws.wrtClk = maxVersion))
    (ckptEntry B s.types s.clks mode r ckptSClk lastCkptClk) sets m

/-- `tvlog_reclaim_x`. -/
def tvlogReclaimX (B : ℕ) (s : State) (mode : TvlogMode) (r : Reads)
    (ckptSClk lastCkptClk : ℕ) : State :=
  let (passed, sets, m) := reclaimLoop B s mode r ckptSClk
  let (_, rest, m') := ckptLoop B s mode r ckptSClk lastCkptClk sets m
  { s with
    toMarks := m'
    headCnt := startCnt s sets
    prevHeadCnt := startCnt s rest
    sets := sets
    passed := s.passed ++ passed }

/-- The entry that `tvlog_append_end` adds, or a filler, of `size` bytes; the first
one of a transaction opens a write set with a header of `hdr` bytes. -/
def append (s : State) (type : ObjType) (hdr size : ℕ) : State :=
  let (ws, cnt) := match s.cur with
    | none => (WriteSet.mk s.tailCnt maxVersion [], s.tailCnt + hdr)
    | some ws => (ws, s.tailCnt)
  { s with
    status := Function.update s.status cnt .none
    types := Function.update s.types cnt type
    clks := Function.update s.clks cnt maxVersion
    cur := some { ws with entries := ws.entries ++ [cnt] }
    tailCnt := cnt + size }

/-- `tvlog_commit`. -/
def commit (s : State) (ws : WriteSet) (wrtClk : ℕ) (freed : ℕ → Bool) : State where
  __ := s
  types := fun cnt =>
    if cnt ∈ ws.entries ∧ s.types cnt = .copy ∧ freed cnt = true then .free else s.types cnt
  clks := fun cnt => if cnt ∈ ws.entries then wrtClk else s.clks cnt
  sets := s.sets ++ [{ ws with wrtClk := wrtClk }]
  cur := none

inductive Op
  | append (type : ObjType) (hdr size : ℕ)
  | commit (wrtClk : ℕ) (freed : ℕ → Bool)
  | abort
  | reclaim (mode : TvlogMode) (r : Reads) (ckptSClk lastCkptClk : ℕ)

def step (B : ℕ) (s : State) : Op → Option State
  | .append type hdr size =>
    if (type = .copy ∨ type = .bogus) ∧ 0 < hdr ∧ 0 < size then some (append s type hdr size)
    else none
  | .commit wrtClk freed =>
    match s.cur with
    | none => none
    | some ws => if wrtClk < maxVersion then some (commit s ws wrtClk freed) else none
  | .abort =>
    match s.cur with
    | none => none
    | some ws => some { s with cur := none, tailCnt := ws.start }
  | .reclaim mode r ckptSClk lastCkptClk =>
    some (tvlogReclaimX B s mode r ckptSClk lastCkptClk)

/-- The tombstones of the entry at a counter. -/
def tombstones (trace : List Event) (cnt : ℕ) : ℕ :=
  trace.count (.enqTombstone cnt) + trace.count (.markTombstone cnt)

/-- The write sets follow each other from `a` to `b`. -/
def Tiles : ℕ → List WriteSet → ℕ → Prop
  | a, [], b => a = b
  | a, ws :: sets, b =>
    ws.start = a ∧ ∃ m, a < m ∧ (∀ cnt ∈ ws.entries, a ≤ cnt ∧ cnt < m) ∧ Tiles m sets b

/-- No copy is checkpointed twice, no freed copy has two tombstones, and none is left
behind by `head_cnt` without one: the write sets from `head_cnt` on are `sets`, and
those before it are `passed`. -/
structure Once (s : State) : Prop where
  ckpt : ∀ cnt, s.trace.count (.ckptEnq cnt) ≤ 1
  tombstone : ∀ cnt, tombstones s.trace cnt ≤ 1
  passed : ∀ ws ∈ s.passed, ∀ cnt ∈ ws.entries, cnt < s.headCnt ∧
    (s.types cnt = .free → tombstones s.trace cnt = 1)
  sets : Tiles s.headCnt s.sets (endCnt s)

/-! ### Loops -/

section Loops

variable {stop : WriteSet → Bool} {body : ℕ → Marks → Option Marks} {P : Marks → Prop}
  {C : ℕ → Prop} {Q : ℕ → Marks → Prop}

/-- A property that every visit keeps is kept by `ws_for_each`. -/
theorem wsForEach_rule (hbody : ∀ c m m', C c → P m → body c m = some m' → P m')
    {cnts : List ℕ} (hC : ∀ c ∈ cnts, C c) {m : Marks} (hm : P m) :
    P (wsForEach body cnts m).2 := by
  induction cnts generalizing m with
  | nil => exact hm
  | cons c cnts ih =>
    rw [wsForEach]
    split
    · exact hm
    · rename_i m' hm'
      exact ih (fun c' hc' => hC c' (List.mem_cons_of_mem _ hc'))
        (hbody c m m' (hC c List.mem_cons_self) hm hm')

/-- When `ws_for_each` does not stop, it has visited every entry. -/
theorem wsForEach_visits (hbody : ∀ c m m', C c → P m → body c m = some m' → P m')
    (hvisit : ∀ c m m', P m → body c m = some m' → Q c m')
    (hstable : ∀ c c' m m', P m → Q c m → body c' m = some m' → Q c m')
    {cnts : List ℕ} (hC : ∀ c ∈ cnts, C c) {m : Marks} (hm : P m)
    (hok : (wsForEach body cnts m).1 = true) : ∀ c ∈ cnts, Q c (wsForEach body cnts m).2 := by
  induction cnts generalizing m with
  | nil => simp
  | cons c cnts ih =>
    rw [wsForEach] at hok ⊢
    split at hok
    · simp at hok
    · rename_i m' hm'
      have hC' : ∀ c' ∈ cnts, C c' := fun c' hc' => hC c' (List.mem_cons_of_mem _ hc')
      have hP := hbody c m m' (hC c List.mem_cons_self) hm hm'
      intro c' hc'
      rcases List.mem_cons.mp hc' with rfl | hc'
      · -- visited now, and not touched by the later visits
        refine (wsForEach_rule (P := fun m => P m ∧ Q c' m) ?_ hC'
          ⟨hP, hvisit c' m m' hm hm'⟩).2
        exact fun c m m' hc h hb => ⟨hbody c m m' hc h.1 hb, hstable c' c m m' h.1 h.2 hb⟩
      · exact ih hC' hP hok c' hc'

/-- A loop over write sets splits them where it stops, and keeps what every visit
keeps. -/
theorem wsLoop_rule {sets passed rest : List WriteSet} {m m' : Marks}
    (heq : wsLoop stop body sets m = (passed, rest, m'))
    (hbody : ∀ c m m', C c → P m → body c m = some m' → P m')
    (hC : ∀ ws ∈ sets, ∀ c ∈ ws.entries, C c) (hm : P m) :
    passed ++ rest = sets ∧ P m' := by
  induction sets generalizing m passed with
  | nil =>
    rw [wsLoop, Prod.mk.injEq, Prod.mk.injEq] at heq
    obtain ⟨rfl, rfl, rfl⟩ := heq
    exact ⟨rfl, hm⟩
  | cons ws sets ih =>
    have hP : P (wsForEach body ws.entries m).2 :=
      wsForEach_rule hbody (hC ws List.mem_cons_self) hm
    rw [wsLoop] at heq
    split at heq
    · rw [Prod.mk.injEq, Prod.mk.injEq] at heq
      obtain ⟨rfl, rfl, rfl⟩ := heq
      exact ⟨rfl, hm⟩
    · split at heq
      · rename_i m₁ hm₁
        rw [hm₁] at hP
        rw [Prod.mk.injEq, Prod.mk.injEq] at heq
        obtain ⟨rfl, rfl, rfl⟩ := heq
        exact ⟨rfl, hP⟩
      · rename_i m₁ hm₁
        rw [hm₁] at hP
        rcases hl : wsLoop stop body sets m₁ with ⟨passed', rest', m₂⟩
        rw [hl, Prod.mk.injEq, Prod.mk.injEq] at heq
        obtain ⟨rfl, rfl, rfl⟩ := heq
        obtain ⟨h1, h2⟩ := ih hl (fun ws' hws => hC ws' (List.mem_cons_of_mem _ hws)) hP
        exact ⟨by rw [List.cons_append, h1], h2⟩

/-- A loop over write sets has visited every entry of those that it has passed. -/
theorem wsLoop_visits {sets passed rest : List WriteSet} {m m' : Marks}
    (heq : wsLoop stop body sets m = (passed, rest, m'))
    (hbody : ∀ c m m', C c → P m → body c m = some m' → P m')
    (hvisit : ∀ c m m', P m → body c m = some m' → Q c m')
    (hstable : ∀ c c' m m', P m → Q c m → body c' m = some m' → Q c m')
    (hC : ∀ ws ∈ sets, ∀ c ∈ ws.entries, C c) (hm : P m) :
    ∀ ws ∈ passed, ∀ c ∈ ws.entries, Q c m' := by
  induction sets generalizing m passed with
  | nil =>
    rw [wsLoop, Prod.mk.injEq] at heq
    obtain ⟨rfl, -⟩ := heq
    simp
  | cons ws sets ih =>
    have hC₁ := hC ws List.mem_cons_self
    have hC₂ : ∀ ws ∈ sets, ∀ c ∈ ws.entries, C c :=
      fun ws' hws => hC ws' (List.mem_cons_of_mem _ hws)
    have hP : P (wsForEach body ws.entries m).2 := wsForEach_rule hbody hC₁ hm
    have hall := wsForEach_visits hbody hvisit hstable hC₁ hm
    rw [wsLoop] at heq
    split at heq
    · rw [Prod.mk.injEq] at heq
      obtain ⟨rfl, -⟩ := heq
      simp
    · split at heq
      · rw [Prod.mk.injEq] at heq
        obtain ⟨rfl, -⟩ := heq
        simp
      · rename_i m₁ hm₁
        rw [hm₁] at hP hall
        rcases hl : wsLoop stop body sets m₁ with ⟨passed', rest', m₂⟩
        rw [hl, Prod.mk.injEq, Prod.mk.injEq] at heq
        obtain ⟨rfl, rfl, rfl⟩ := heq
        intro ws' hws c hc
        rcases List.mem_cons.mp hws with rfl | hws
        · -- the later visits keep what the visit of this entry has left
          refine (wsLoop_rule (P := fun m => P m ∧ Q c m) hl ?_ hC₂ ⟨hP, hall rfl c hc⟩).2.2
          exact fun c' m m' hc' h hb => ⟨hbody c' m m' hc' h.1 hb, hstable c c' m m' h.1 h.2 hb⟩
        · exact ih hl hC₂ hP ws' hws c hc

end Loops

/-! ### What a visit does -/

/-- The status of an entry says what has been done for it. -/
structure MarksOk (types : ℕ → ObjType) (m : Marks) : Prop where
  ckpt : ∀ c, m.trace.count (.ckptEnq c) = if m.status c = .detached then 1 else 0
  tombstone : ∀ c, tombstones m.trace c = if m.status c = .tombstoneMarked then 1 else 0
  copy : ∀ c, m.status c = .detached → types c = .copy
  free : ∀ c, m.status c = .tombstoneMarked → types c = .free

/-- A copy or freed copy that is not marked in its way has no mark at all. -/
theorem MarksOk.status_eq_none {types : ℕ → ObjType} {m : Marks} (h : MarksOk types m) {c : ℕ}
    (hc : types c = .copy ∧ m.status c ≠ .detached ∨
      types c = .free ∧ m.status c ≠ .tombstoneMarked) : m.status c = .none := by
  rcases hst : m.status c with _ | _ | _
  · rfl
  · rcases hc with ⟨hc, -⟩ | ⟨-, hc⟩
    · rw [h.free c hst] at hc
      contradiction
    · exact absurd hst hc
  · rcases hc with ⟨-, hc⟩ | ⟨hc, -⟩
    · exact absurd hst hc
    · rw [h.copy c hst] at hc
      contradiction

theorem tombstones_append_ckptEnq (trace : List Event) (c c' : ℕ) :
    tombstones (trace ++ [.ckptEnq c]) c' = tombstones trace c' := by
  simp [tombstones, List.count_append]

/-- Checkpointing a copy. -/
theorem MarksOk.detach {types : ℕ → ObjType} {m : Marks} (h : MarksOk types m) {c : ℕ}
    (hty : types c = .copy) (hst : m.status c ≠ .detached) :
    MarksOk types ⟨Function.update m.status c .detached, m.trace ++ [.ckptEnq c]⟩ := by
  have hnone := h.status_eq_none (Or.inl ⟨hty, hst⟩)
  refine ⟨fun c' => ?_, fun c' => ?_, fun c' hc' => ?_, fun c' hc' => ?_⟩
  · have hold := h.ckpt c'
    by_cases hc : c' = c
    · subst hc
      simp [List.count_append, hold, hnone]
    · simp [List.count_append, hold, hc, Ne.symm hc]
  · rw [tombstones_append_ckptEnq, h.tombstone c']
    by_cases hc : c' = c
    · subst hc
      simp [hnone]
    · simp [hc]
  · by_cases hc : c' = c
    · rw [hc, hty]
    · simp only [Function.update_of_ne hc] at hc'
      exact h.copy c' hc'
  · by_cases hc : c' = c
    · simp [hc] at hc'
    · simp only [Function.update_of_ne hc] at hc'
      exact h.free c' hc'

/-- A tombstone of either kind. -/
theorem MarksOk.tomb {types : ℕ → ObjType} {m : Marks} (h : MarksOk types m) {c : ℕ}
    (hty : types c = .free) (hst : m.status c ≠ .tombstoneMarked) (b : Bool) :
    MarksOk types ⟨Function.update m.status c .tombstoneMarked,
      m.trace ++ [if b then .enqTombstone c else .markTombstone c]⟩ := by
  have hnone := h.status_eq_none (Or.inr ⟨hty, hst⟩)
  refine ⟨fun c' => ?_, fun c' => ?_, fun c' hc' => ?_, fun c' hc' => ?_⟩
  · have hev : (m.trace ++ [if b then Event.enqTombstone c else .markTombstone c]).count
        (.ckptEnq c') = m.trace.count (.ckptEnq c') := by
      cases b <;> simp [List.count_append]
    rw [hev, h.ckpt c']
    by_cases hc : c' = c
    · subst hc
      simp [hnone]
    · simp [hc]
  · have hold := h.tombstone c'
    rw [tombstones] at hold ⊢
    by_cases hc : c' = c
    · subst hc
      rw [hnone] at hold
      cases b <;> simp [List.count_append] <;> simp at hold <;> omega
    · cases b <;> simp [List.count_append, hc, Ne.symm hc] <;> exact hold
  · by_cases hc : c' = c
    · simp [hc] at hc'
    · simp only [Function.update_of_ne hc] at hc'
      exact h.copy c' hc'
  · by_cases hc : c' = c
    · rw [hc, hty]
    · simp only [Function.update_of_ne hc] at hc'
      exact h.free c' hc'

section Visits

variable {B E ckptSClk lastCkptClk c c' : ℕ} {types : ℕ → ObjType} {clks : ℕ → ℕ}
  {mode : TvlogMode} {r : Reads} {m m' : Marks}

/-- A visit of the first loop changes nothing, unless the entry is a freed copy
without a mark. -/
theorem reclaimEntry_cases (h : reclaimEntry B types mode r ckptSClk c m = some m') :
    m' = m ∧ (types c = .free → m.status c = .tombstoneMarked) ∨
      types c = .free ∧ m.status c ≠ .tombstoneMarked ∧
        m' = ⟨Function.update m.status c .tombstoneMarked,
          m.trace ++ [if r.isOrgAct c then .enqTombstone c else .markTombstone c]⟩ := by
  rw [reclaimEntry] at h
  split at h
  · rename_i hty
    split at h
    · contradiction
    · rw [Option.some_inj] at h
      exact Or.inl ⟨h.symm, fun hf => absurd (hty.symm.trans hf) (by simp)⟩
  · rename_i hty
    split at h
    · rename_i hst
      rw [Option.some_inj] at h
      exact Or.inl ⟨h.symm, fun _ => hst⟩
    · rename_i hst
      rw [Option.some_inj] at h
      exact Or.inr ⟨hty, hst, h.symm⟩
  · rename_i hty
    rw [Option.some_inj] at h
    exact Or.inl ⟨h.symm, fun hf => absurd (hty.symm.trans hf) (by simp)⟩
  · rename_i hty
    rw [Option.some_inj] at h
    exact Or.inl ⟨h.symm, fun hf => absurd (hty.symm.trans hf) (by simp)⟩

/-- A visit of the second loop changes nothing, unless the entry is a copy that is
not detached. -/
theorem ckptEntry_cases
    (h : ckptEntry B types clks mode r ckptSClk lastCkptClk c m = some m') :
    m' = m ∨ types c = .copy ∧ m.status c ≠ .detached ∧
      m' = ⟨Function.update m.status c .detached, m.trace ++ [.ckptEnq c]⟩ := by
  unfold ckptEntry at h
  split at h
  · rw [Option.some_inj] at h
    exact Or.inl h.symm
  · rename_i hty
    split at h
    · rename_i hst
      split at h
      · rw [Option.some_inj] at h
        exact Or.inr ⟨not_not.mp hty, hst.1, h.symm⟩
      · contradiction
    · rw [Option.some_inj] at h
      exact Or.inl h.symm

/-- What the loops keep: the marks are right, and there are none from `E` on. -/
def LoopInv (types : ℕ → ObjType) (E : ℕ) (m : Marks) : Prop :=
  MarksOk types m ∧ ∀ c, E ≤ c → m.status c = .none

/-- The entry is no freed copy, or it is marked. -/
def TombDone (types : ℕ → ObjType) (c : ℕ) (m : Marks) : Prop :=
  types c = .free → m.status c = .tombstoneMarked

theorem loopInv_update {st : Status} {trace : List Event} (h : LoopInv types E m) (hc : c < E)
    (hok : MarksOk types ⟨Function.update m.status c st, trace⟩) :
    LoopInv types E ⟨Function.update m.status c st, trace⟩ := by
  refine ⟨hok, fun c' hc' => ?_⟩
  simp only [Function.update_of_ne (show c' ≠ c by omega)]
  exact h.2 c' hc'

theorem loopInv_reclaimEntry (hc : c < E) (h : LoopInv types E m)
    (hm : reclaimEntry B types mode r ckptSClk c m = some m') : LoopInv types E m' := by
  rcases reclaimEntry_cases hm with ⟨rfl, -⟩ | ⟨hty, hst, rfl⟩
  · exact h
  · exact loopInv_update h hc (h.1.tomb hty hst _)

theorem loopInv_ckptEntry (hc : c < E) (h : LoopInv types E m)
    (hm : ckptEntry B types clks mode r ckptSClk lastCkptClk c m = some m') :
    LoopInv types E m' := by
  rcases ckptEntry_cases hm with rfl | ⟨hty, hst, rfl⟩
  · exact h
  · exact loopInv_update h hc (h.1.detach hty hst)

theorem tombDone_of_visit (hm : reclaimEntry B types mode r ckptSClk c m = some m') :
    TombDone types c m' := by
  rcases reclaimEntry_cases hm with ⟨rfl, h⟩ | ⟨-, -, rfl⟩
  · exact h
  · exact fun _ => Function.update_self _ _ _

theorem TombDone.reclaimEntry (h : TombDone types c m)
    (hm : TvlogReclaim.reclaimEntry B types mode r ckptSClk c' m = some m') :
    TombDone types c m' := by
  intro hty
  rcases reclaimEntry_cases hm with ⟨rfl, -⟩ | ⟨-, -, rfl⟩
  · exact h hty
  · by_cases hc : c = c'
    · simp [hc]
    · simp only [Function.update_of_ne hc]
      exact h hty

theorem TombDone.ckptEntry (h : TombDone types c m)
    (hm : TvlogReclaim.ckptEntry B types clks mode r ckptSClk lastCkptClk c' m = some m') :
    TombDone types c m' := by
  intro hty
  rcases ckptEntry_cases hm with rfl | ⟨hcopy, -, rfl⟩
  · exact h hty
  · -- a detached entry is a copy
    have hc : c ≠ c' := by
      rintro rfl
      rw [hty] at hcopy
      contradiction
    simp only [Function.update_of_ne hc]
    exact h hty

end Visits

/-! ### The invariant -/

/-- The invariant of the runs. -/
structure Inv (s : State) : Prop where
  tiles : Tiles s.headCnt s.sets (endCnt s)
  cur : ∀ ws, s.cur = some ws → ws.start < s.tailCnt ∧
    ∀ c ∈ ws.entries, ws.start ≤ c ∧ c < s.tailCnt
  marks : LoopInv s.types (endCnt s) s.toMarks
  passed : ∀ ws ∈ s.passed, ∀ c ∈ ws.entries, c < s.headCnt ∧ TombDone s.types c s.toMarks

theorem Tiles.le {a b : ℕ} {sets : List WriteSet} (h : Tiles a sets b) : a ≤ b := by
  induction sets generalizing a with
  | nil => exact Nat.le_of_eq h
  | cons ws sets ih =>
    obtain ⟨-, m, hlt, -, hrest⟩ := h
    have := ih hrest
    omega

theorem Tiles.entry_lt {a b : ℕ} {sets : List WriteSet} (h : Tiles a sets b) {ws : WriteSet}
    (hws : ws ∈ sets) {c : ℕ} (hc : c ∈ ws.entries) : c < b := by
  induction sets generalizing a with
  | nil => simp at hws
  | cons ws' sets ih =>
    obtain ⟨-, m, hlt, hent, hrest⟩ := h
    rcases List.mem_cons.mp hws with rfl | hws
    · have := hrest.le
      have := (hent c hc).2
      omega
    · exact ih hrest hws

/-- The write sets behind those of a prefix start where these end. -/
theorem Tiles.split {a b : ℕ} {xs ys : List WriteSet} (h : Tiles a (xs ++ ys) b) :
    ∃ m, Tiles a xs m ∧ Tiles m ys b := by
  induction xs generalizing a with
  | nil => exact ⟨a, rfl, h⟩
  | cons ws xs ih =>
    obtain ⟨hst, m, hlt, hent, hrest⟩ := h
    obtain ⟨m', h1, h2⟩ := ih hrest
    exact ⟨m', ⟨hst, m, hlt, hent, h1⟩, h2⟩

theorem Tiles.append {a m b : ℕ} {xs ys : List WriteSet} (h1 : Tiles a xs m)
    (h2 : Tiles m ys b) : Tiles a (xs ++ ys) b := by
  induction xs generalizing a with
  | nil =>
    have ha : a = m := h1
    exact ha ▸ h2
  | cons ws xs ih =>
    obtain ⟨hst, k, hlt, hent, hrest⟩ := h1
    exact ⟨hst, k, hlt, hent, ih hrest⟩

theorem Tiles.start {s : State} {a : ℕ} {sets : List WriteSet} (h : Tiles a sets (endCnt s)) :
    startCnt s sets = a := by
  rcases sets with _ | ⟨ws, sets⟩
  · exact h.symm
  · exact h.1

/-- The first loop marks every freed copy that it leaves behind. -/
theorem reclaimLoop_spec {B ckptSClk : ℕ} {s : State} (h : Inv s) {mode : TvlogMode}
    {r : Reads} {passed rest : List WriteSet} {m : Marks}
    (heq : reclaimLoop B s mode r ckptSClk = (passed, rest, m)) :
    passed ++ rest = s.sets ∧ LoopInv s.types (endCnt s) m ∧
      (∀ ws ∈ passed, ∀ c ∈ ws.entries, TombDone s.types c m) ∧
      ∀ c, TombDone s.types c s.toMarks → TombDone s.types c m := by
  have hC : ∀ ws ∈ s.sets, ∀ c ∈ ws.entries, c < endCnt s :=
    fun ws hws c hc => h.tiles.entry_lt hws hc
  obtain ⟨hsplit, hinv⟩ := wsLoop_rule (P := LoopInv s.types (endCnt s)) heq
    (fun c m m' => loopInv_reclaimEntry) hC h.marks
  refine ⟨hsplit, hinv, ?_, fun c hc => ?_⟩
  · exact wsLoop_visits (P := fun _ => True) (C := fun _ => True) heq (fun _ _ _ _ _ _ => trivial)
      (fun c m m' _ => tombDone_of_visit) (fun c c' m m' _ hq => hq.reclaimEntry)
      (fun _ _ _ _ => trivial) trivial
  · exact (wsLoop_rule (P := TombDone s.types c) (C := fun _ => True) heq
      (fun c' m m' _ hq hm => hq.reclaimEntry hm) (fun _ _ _ _ => trivial) hc).2

theorem ckptLoop_spec {B ckptSClk lastCkptClk : ℕ} {s : State} {mode : TvlogMode} {r : Reads}
    {sets passed rest : List WriteSet} {m m' : Marks}
    (hC : ∀ ws ∈ sets, ∀ c ∈ ws.entries, c < endCnt s)
    (heq : ckptLoop B s mode r ckptSClk lastCkptClk sets m = (passed, rest, m'))
    (hm : LoopInv s.types (endCnt s) m) :
    passed ++ rest = sets ∧ LoopInv s.types (endCnt s) m' ∧
      ∀ c, TombDone s.types c m → TombDone s.types c m' := by
  obtain ⟨hsplit, hinv⟩ := wsLoop_rule (P := LoopInv s.types (endCnt s)) heq
    (fun c m m' => loopInv_ckptEntry) hC hm
  refine ⟨hsplit, hinv, fun c hc => ?_⟩
  exact (wsLoop_rule (P := TombDone s.types c) (C := fun _ => True) heq
    (fun c' m m' _ hq hm => hq.ckptEntry hm) (fun _ _ _ _ => trivial) hc).2

/-- `tvlog_reclaim_x` keeps the invariant. -/
theorem inv_reclaimX {B ckptSClk lastCkptClk : ℕ} {s : State} (h : Inv s) (mode : TvlogMode)
    (r : Reads) : Inv (tvlogReclaimX B s mode r ckptSClk lastCkptClk) := by
  rcases h₁ : reclaimLoop B s mode r ckptSClk with ⟨passed, sets, m⟩
  rcases h₂ : ckptLoop B s mode r ckptSClk lastCkptClk sets m with ⟨ckpted, rest, m'⟩
  obtain ⟨hsplit, hm, hvis, hkeep⟩ := reclaimLoop_spec h h₁
  have htiles := h.tiles
  rw [← hsplit] at htiles
  obtain ⟨x, hpre, hpost⟩ := htiles.split
  obtain ⟨-, hm', hkeep'⟩ := ckptLoop_spec (fun ws hws c hc => hpost.entry_lt hws hc) h₂ hm
  simp only [tvlogReclaimX, h₁, h₂]
  have hle := hpre.le
  refine ⟨?_, h.cur, hm', fun ws hws c hc => ?_⟩
  · show Tiles (startCnt s sets) sets (endCnt s)
    rw [hpost.start]
    exact hpost
  · show c < startCnt s sets ∧ TombDone s.types c m'
    rw [hpost.start]
    rcases List.mem_append.mp hws with hws | hws
    · obtain ⟨hlt, hdone⟩ := h.passed ws hws c hc
      exact ⟨by omega, hkeep' c (hkeep c hdone)⟩
    · exact ⟨hpre.entry_lt hws hc, hkeep' c (hvis ws hws c hc)⟩

theorem inv_initial : Inv initial := by
  refine ⟨rfl, nofun, ⟨⟨fun c => rfl, fun c => rfl, nofun, nofun⟩, fun c _ => rfl⟩, ?_⟩
  simp [initial]

/-- The marks are about entries before `E`, so the headers from there on do not
matter. -/
theorem LoopInv.congr {types types' : ℕ → ObjType} {E E' : ℕ} {m : Marks}
    (h : LoopInv types E m) (hE : E ≤ E') (hty : ∀ c < E, types' c = types c) :
    LoopInv types' E' m := by
  have hlt : ∀ c, m.status c ≠ .none → c < E := by
    intro c hc
    by_contra hge
    exact hc (h.2 c (by omega))
  refine ⟨⟨h.1.ckpt, h.1.tombstone, fun c hc => ?_, fun c hc => ?_⟩,
    fun c hc => h.2 c (by omega)⟩
  · rw [hty c (hlt c (by simp [hc]))]
    exact h.1.copy c hc
  · rw [hty c (hlt c (by simp [hc]))]
    exact h.1.free c hc

theorem Inv.passed_congr {s : State} (h : Inv s) {types' : ℕ → ObjType}
    (hty : ∀ c < endCnt s, types' c = s.types c) :
    ∀ ws ∈ s.passed, ∀ c ∈ ws.entries, c < s.headCnt ∧ TombDone types' c s.toMarks := by
  intro ws hws c hc
  obtain ⟨hlt, hdone⟩ := h.passed ws hws c hc
  have hle := h.tiles.le
  refine ⟨hlt, ?_⟩
  rw [TombDone, hty c (by omega)]
  exact hdone

theorem Inv.endCnt_le {s : State} (h : Inv s) : endCnt s ≤ s.tailCnt := by
  rw [endCnt]
  split
  · exact Nat.le_refl _
  · rename_i ws hcur
    exact (h.cur ws hcur).1.le

/-- A new entry, behind all marks. -/
theorem inv_append {s : State} (h : Inv s) {type : ObjType} {hdr size : ℕ} (hhdr : 0 < hdr)
    (hsize : 0 < size) : Inv (append s type hdr size) := by
  have htl := h.endCnt_le
  -- the header that is written lies behind the committed write sets
  have hframe : ∀ cnt, endCnt s ≤ cnt →
      Function.update s.status cnt .none = s.status ∧
        ∀ c < endCnt s, Function.update s.types cnt type c = s.types c := by
    intro cnt hcnt
    refine ⟨?_, fun c hc => Function.update_of_ne (by omega) _ _⟩
    rw [← h.marks.2 cnt hcnt, Function.update_eq_self]
  cases hcur : s.cur with
  | none =>
    have hend : endCnt s = s.tailCnt := by rw [endCnt, hcur]
    obtain ⟨hst, hty⟩ := hframe (s.tailCnt + hdr) (by omega)
    simp only [append, hcur, hst]
    refine ⟨?_, ?_, ?_, h.passed_congr hty⟩
    · show Tiles s.headCnt s.sets s.tailCnt
      rw [← hend]
      exact h.tiles
    · rintro ws ⟨⟩
      simp only [List.nil_append, List.mem_singleton, forall_eq]
      omega
    · exact h.marks.congr hend.le hty
  | some ws =>
    have hend : endCnt s = ws.start := by rw [endCnt, hcur]
    obtain ⟨hlt, hent⟩ := h.cur ws hcur
    obtain ⟨hst, hty⟩ := hframe s.tailCnt htl
    simp only [append, hcur, hst]
    refine ⟨?_, ?_, ?_, h.passed_congr hty⟩
    · show Tiles s.headCnt s.sets ws.start
      rw [← hend]
      exact h.tiles
    · rintro ws' ⟨⟩
      refine ⟨by simp only; omega, fun c hc => ?_⟩
      simp only [List.mem_append, List.mem_singleton] at hc
      rcases hc with hc | rfl
      · have := hent c hc
        simp only
        omega
      · simp only
        omega
    · exact h.marks.congr hend.le hty

/-- `tvlog_commit` changes no entry that has a mark. -/
theorem inv_commit {s : State} (h : Inv s) {ws : WriteSet} (hcur : s.cur = some ws)
    (wrtClk : ℕ) (freed : ℕ → Bool) : Inv (commit s ws wrtClk freed) := by
  have hend : endCnt s = ws.start := by rw [endCnt, hcur]
  obtain ⟨hlt, hent⟩ := h.cur ws hcur
  have hty : ∀ c < endCnt s, (commit s ws wrtClk freed).types c = s.types c := by
    intro c hc
    refine if_neg fun hmem => ?_
    have := (hent c hmem.1).1
    omega
  refine ⟨?_, nofun, h.marks.congr h.endCnt_le hty, h.passed_congr hty⟩
  show Tiles s.headCnt (s.sets ++ [{ ws with wrtClk := wrtClk }]) s.tailCnt
  exact h.tiles.append ⟨hend.symm, s.tailCnt, by omega, by rw [hend]; exact hent, rfl⟩

theorem inv_abort {s : State} (h : Inv s) {ws : WriteSet} (hcur : s.cur = some ws) :
    Inv { s with cur := none, tailCnt := ws.start } := by
  have hend : endCnt s = ws.start := by rw [endCnt, hcur]
  have htiles := h.tiles
  have hmarks := h.marks
  rw [hend] at htiles hmarks
  exact ⟨htiles, nofun, hmarks, h.passed⟩

theorem inv_step {B : ℕ} {s s' : State} {i : Op} (h : Inv s) (hs : step B s i = some s') :
    Inv s' := by
  match i with
  | .append type hdr size =>
    simp only [step, Option.ite_none_right_eq_some, Option.some_inj] at hs
    obtain ⟨⟨-, hhdr, hsize⟩, rfl⟩ := hs
    exact inv_append h hhdr hsize
  | .commit wrtClk freed =>
    simp only [step] at hs
    split at hs
    · contradiction
    · rename_i ws hcur
      rw [Option.ite_none_right_eq_some, Option.some_inj] at hs
      obtain ⟨-, rfl⟩ := hs
      exact inv_commit h hcur wrtClk freed
  | .abort =>
    simp only [step] at hs
    split at hs
    · contradiction
    · rename_i ws hcur
      rw [Option.some_inj] at hs
      exact hs ▸ inv_abort h hcur
  | .reclaim mode r ckptSClk lastCkptClk =>
    rw [step, Option.some_inj] at hs
    exact hs ▸ inv_reclaimX h mode r

theorem Inv.once {s : State} (h : Inv s) : Once s := by
  have hok := h.marks.1
  refine ⟨fun c => ?_, fun c => ?_, fun ws hws c hc => ?_, h.tiles⟩
  · rw [hok.ckpt c]
    split <;> omega
  · rw [hok.tombstone c]
    split <;> omega
  · obtain ⟨hlt, hdone⟩ := h.passed ws hws c hc
    refine ⟨hlt, fun hfree => ?_⟩
    rw [hok.tombstone c, if_pos (hdone hfree)]

section Ring

variable {T : Tvlog} {B ckptSClk lastCkptClk c d : ℕ} {s : State} {l : List WriteSet}

/-- The bytes of the ring from `c` to `d` are the committed write sets `l`. -/
inductive Holds (T : Tvlog) : ℕ → List WriteSet → ℕ → Prop
  | nil (c : ℕ) : Holds T c [] c
  | cons {c m d : ℕ} {h : ObjHdr} {objs : List (ℕ × ObjHdr)} {l : List WriteSet}
      (ws : IsWs T c h objs m) (rest : Holds T m l d) :
      Holds T c (⟨c, (T.wss (tvlogIndex c)).wrtClk, objs.map Prod.fst⟩ :: l) d

/-- The log `s` is what the ring `T` holds. -/
structure Agrees (T : Tvlog) (s : State) : Prop where
  head : s.headCnt = T.headCnt
  prev : s.prevHeadCnt = T.prevHeadCnt
  sets : Holds T T.headCnt s.sets (endCnt s)
  types : ∀ ws ∈ s.sets, ∀ cnt ∈ ws.entries, s.types cnt = T.types (tvlogIndex cnt)
  blocked : Blocked T (endCnt s)
  tail : endCnt s ≤ T.tailCnt

theorem exists_holds {es : List (ℕ × ObjHdr)} (h : CommittedSets T c es d) :
    ∃ l, Holds T c l d := by
  induction h with
  | nil c => exact ⟨[], .nil c⟩
  | cons ws _ _ ih =>
    obtain ⟨l, hl⟩ := ih
    exact ⟨_, .cons ws hl⟩

/-- Every well-formed ring is the one of some log. -/
theorem exists_agrees {start : ℕ} {es os : List (ℕ × ObjHdr)} (h : LogShape T start es os) :
    ∃ s, Agrees T s := by
  obtain ⟨l, hl⟩ := exists_holds h.committed
  let s : State := {
    initial with
    headCnt := T.headCnt
    prevHeadCnt := T.prevHeadCnt
    sets := l
    cur := some ⟨start, maxVersion, []⟩
    types := fun cnt => T.types (tvlogIndex cnt) }
  exact ⟨s, rfl, rfl, hl, fun _ _ _ _ => rfl, h.openSet.blocked, h.openSet.le⟩

theorem Holds.length_le (h : Holds T c l d) : c + l.length ≤ d := by
  induction h with
  | nil c => exact Nat.le_refl _
  | cons ws _ ih =>
    have := ws.lt
    rw [List.length_cons]
    omega

theorem Holds.split {xs ys : List WriteSet} (h : Holds T c (xs ++ ys) d) :
    ∃ m, c ≤ m ∧ Holds T m ys d := by
  induction xs generalizing c with
  | nil => exact ⟨c, Nat.le_refl _, h⟩
  | cons ws xs ih =>
    rcases h with _ | ⟨hws, hrest⟩
    obtain ⟨m, hle, hm⟩ := ih hrest
    exact ⟨m, hws.lt.le.trans hle, hm⟩

theorem Holds.start (h : Holds T c l (endCnt s)) : startCnt s l = c := by
  generalize hd : endCnt s = d at h
  rcases h with _ | ⟨hws, hrest⟩
  · exact hd
  · rfl

theorem startCnt_eq (s : State) (l : List WriteSet) :
    (l.head?.map WriteSet.start).getD (endCnt s) = startCnt s l := by
  rcases l with _ | ⟨ws, l⟩
  · rfl
  · rfl

/-- A loop over the ring stops where the loop over the write sets does. -/
theorem wsLoop_agrees (stopR tooNew : ℕ → Bool)
    (bodyR : ℕ → List (ℕ × ObjHdr) → Bool × List (ℕ × ℕ)) {stop : WriteSet → Bool}
    {body : ℕ → Marks → Option Marks} {P : Marks → Prop} (h : Holds T c l d)
    (hstop : ∀ ws, stop ws = true ↔
      stopR ws.start = true ∨ tooNew ws.wrtClk = true ∨ ws.wrtClk = maxVersion)
    (hkeep : ∀ c m m', P m → body c m = some m' → P m')
    (hbody : ∀ objs : List (ℕ × ObjHdr), (∃ ws ∈ l, ws.entries = objs.map Prod.fst) →
      ∀ w m, P m → (bodyR w objs).1 = (wsForEach body (objs.map Prod.fst) m).1)
    (hb : Blocked T d) (hd : d ≤ T.tailCnt) {m m' : Marks} (hm : P m)
    {passed rest : List WriteSet} (heq : wsLoop stop body l m = (passed, rest, m'))
    {fuel : ℕ} (hf : l.length < fuel) :
    ∃ sizes, TimeStone.wsLoop T stopR tooNew bodyR fuel c =
      some ((rest.head?.map WriteSet.start).getD d, sizes) := by
  induction h generalizing m passed fuel with
  | nil c =>
    rw [wsLoop, Prod.mk.injEq, Prod.mk.injEq] at heq
    obtain ⟨-, rfl, -⟩ := heq
    obtain ⟨n, rfl⟩ := Nat.exists_eq_succ_of_ne_zero (Nat.ne_zero_of_lt hf)
    rw [TimeStone.wsLoop]
    split
    · exact ⟨_, rfl⟩
    · rename_i hgo
      -- only an open write set is left
      rcases hb with hb | ⟨h, ws, hat, hclk⟩
      · exact absurd (Or.inl hb.ge) hgo
      · exact ⟨[], by simp [hat, hclk]⟩
  | @cons c k d h objs l ws hrest ih =>
    have hlt := ws.lt
    have hle := hrest.length_le
    obtain ⟨n, rfl⟩ := Nat.exists_eq_succ_of_ne_zero (Nat.ne_zero_of_lt hf)
    rw [List.length_cons] at hf
    have hst := hstop ⟨c, (T.wss (tvlogIndex c)).wrtClk, objs.map Prod.fst⟩
    rw [wsLoop] at heq
    rw [TimeStone.wsLoop]
    split at heq
    · -- both loops stop in front of this write set
      rename_i hs
      rw [Prod.mk.injEq, Prod.mk.injEq] at heq
      obtain ⟨-, rfl, -⟩ := heq
      split
      · exact ⟨_, rfl⟩
      · rename_i hgo
        rw [not_or] at hgo
        have hnew := (hst.mp hs).resolve_left hgo.2
        exact ⟨[], by simp [ws.at, hnew]⟩
    · rename_i hs
      rw [hst, not_or] at hs
      rw [if_neg (by rw [not_or]; exact ⟨by omega, hs.1⟩)]
      simp only [ws.at, Option.bind_eq_bind, Option.bind_some, if_neg hs.2, ws.entries]
      have hsame := hbody objs ⟨_, List.mem_cons_self, rfl⟩ (T.wss (tvlogIndex c)).wrtClk m hm
      have hP : P (wsForEach body (objs.map Prod.fst) m).2 :=
        wsForEach_rule (C := fun _ => True) (fun c m m' _ => hkeep c m m') (fun _ _ => trivial) hm
      rcases hr : bodyR (T.wss (tvlogIndex c)).wrtClk objs with ⟨ok, sizes⟩
      rcases hw : wsForEach body (objs.map Prod.fst) m with ⟨ok', m₁⟩
      rw [hr, hw] at hsame
      simp only at hsame
      subst hsame
      rw [hw] at heq hP
      rcases ok with _ | _
      · simp only [Prod.mk.injEq] at heq
        obtain ⟨-, rfl, -⟩ := heq
        exact ⟨sizes, rfl⟩
      · rcases hl : wsLoop stop body l m₁ with ⟨passed', rest', m₂⟩
        simp only [hl, Prod.mk.injEq] at heq
        obtain ⟨-, rfl, rfl⟩ := heq
        have hbody' : ∀ objs : List (ℕ × ObjHdr), (∃ ws ∈ l, ws.entries = objs.map Prod.fst) →
            ∀ w m, P m → (bodyR w objs).1 = (wsForEach body (objs.map Prod.fst) m).1 := by
          rintro objs' ⟨ws', hws, he⟩
          exact hbody objs' ⟨ws', List.mem_cons_of_mem _ hws, he⟩
        obtain ⟨sizes', hrec⟩ := ih hbody' hb hd hP hl (show l.length < n by omega)
        exact ⟨sizes ++ sizes', by simp [hrec]⟩

/-- What the loops over the ring read of a copy. -/
def ringEnv (B : ℕ) (s : State) (r : Reads) (ckptSClk lastCkptClk : ℕ) : Env where
  prevTooNew cnt := decide (gteClock B (r.prev₁ cnt) ckptSClk)
  atBorderline cnt := decide (s.status cnt ≠ .detached ∧
    atBorderline B (s.clks cnt) (r.prev₂ cnt) ckptSClk lastCkptClk)
  enqTombstone cnt := decide (s.status cnt ≠ .tombstoneMarked) && r.isOrgAct cnt

/-- The first loops turn down the same write sets. -/
theorem reclaimWs_agrees {mode : TvlogMode} {r : Reads} {objs : List (ℕ × ObjHdr)}
    (hty : ∀ p ∈ objs, s.types p.1 = T.types (tvlogIndex p.1)) (w : ℕ) (m : Marks) :
    (reclaimWs T mode (ringEnv B s r ckptSClk lastCkptClk) w objs).1 =
      (wsForEach (reclaimEntry B s.types mode r ckptSClk) (objs.map Prod.fst) m).1 := by
  induction objs generalizing m with
  | nil => rfl
  | cons p objs ih =>
    obtain ⟨cnt, h⟩ := p
    have hp : s.types cnt = T.types (tvlogIndex cnt) := hty (cnt, h) List.mem_cons_self
    have ih := fun m => ih (fun q hq => hty q (List.mem_cons_of_mem _ hq)) m
    rw [List.map_cons, wsForEach, reclaimWs, reclaimEntry, hp]
    rcases hT : T.types (tvlogIndex cnt) with _ | _ | _ | _
    · exact ih m
    · by_cases hstop : mode = .bestEffort ∧ gteClock B (r.prev₁ cnt) ckptSClk
      · simp [ringEnv, hstop]
      · rw [if_neg (by simpa [ringEnv] using hstop)]
        simp only [if_neg hstop]
        exact ih m
    · by_cases hst : m.status cnt = .tombstoneMarked
      · simp only [if_pos hst]
        exact ih m
      · simp only [if_neg hst]
        exact ih _
    · exact ih m

/-- The copies have the status that the call has found, as far as a best-effort pass
is concerned. -/
def CopiesKept (s : State) (mode : TvlogMode) (m : Marks) : Prop :=
  mode = .bestEffort → ∀ cnt, s.types cnt = .copy → m.status cnt = s.status cnt

theorem copiesKept_reclaimEntry {mode : TvlogMode} {r : Reads} {cnt : ℕ} {m m' : Marks}
    (h : CopiesKept s mode m) (hm : reclaimEntry B s.types mode r ckptSClk cnt m = some m') :
    CopiesKept s mode m' := by
  intro hmode c hc
  rcases reclaimEntry_cases hm with ⟨rfl, -⟩ | ⟨hfree, -, rfl⟩
  · exact h hmode c hc
  · have hne : c ≠ cnt := by
      rintro rfl
      rw [hc] at hfree
      contradiction
    simp only [Function.update_of_ne hne]
    exact h hmode c hc

/-- A best-effort pass checkpoints nothing. -/
theorem copiesKept_ckptEntry {mode : TvlogMode} {r : Reads} {cnt : ℕ} {m m' : Marks}
    (h : CopiesKept s mode m)
    (hm : ckptEntry B s.types s.clks mode r ckptSClk lastCkptClk cnt m = some m') :
    CopiesKept s mode m' := by
  rintro rfl
  have hsame : m' = m := by
    unfold ckptEntry at hm
    split at hm
    · exact (Option.some_inj.mp hm).symm
    · split at hm
      · contradiction
      · exact (Option.some_inj.mp hm).symm
  rw [hsame]
  exact h rfl

/-- The second loops turn down the same write sets. -/
theorem ckptWs_agrees {mode : TvlogMode} {r : Reads} {objs : List (ℕ × ObjHdr)}
    (hty : ∀ p ∈ objs, s.types p.1 = T.types (tvlogIndex p.1)) (w : ℕ) {m : Marks}
    (hm : CopiesKept s mode m) :
    (ckptWs T mode (ringEnv B s r ckptSClk lastCkptClk) w objs).1 =
      (wsForEach (ckptEntry B s.types s.clks mode r ckptSClk lastCkptClk)
        (objs.map Prod.fst) m).1 := by
  induction objs generalizing m with
  | nil => rfl
  | cons p objs ih =>
    obtain ⟨cnt, h⟩ := p
    have hp : s.types cnt = T.types (tvlogIndex cnt) := hty (cnt, h) List.mem_cons_self
    have hty' : ∀ q ∈ objs, s.types q.1 = T.types (tvlogIndex q.1) :=
      fun q hq => hty q (List.mem_cons_of_mem _ hq)
    rw [List.map_cons, wsForEach]
    unfold ckptWs
    cases mode with
    | ckpt =>
      -- nothing stops a checkpoint
      have hsome : ∃ m', ckptEntry B s.types s.clks .ckpt r ckptSClk lastCkptClk cnt m =
          some m' := by
        unfold ckptEntry
        split
        · exact ⟨_, rfl⟩
        · split
          · exact ⟨_, rfl⟩
          · exact ⟨_, rfl⟩
      obtain ⟨m', hm'⟩ := hsome
      have hrec := ih hty' (copiesKept_ckptEntry hm hm')
      simp only [hm']
      split
      · exact hrec
      · exact hrec
    | bestEffort =>
      by_cases hstop : s.types cnt = .copy ∧ s.status cnt ≠ .detached ∧
          atBorderline B (s.clks cnt) (r.prev₂ cnt) ckptSClk lastCkptClk
      · have hst : m.status cnt ≠ .detached := by
          rw [hm rfl cnt hstop.1]
          exact hstop.2.1
        have hnone : ckptEntry B s.types s.clks .bestEffort r ckptSClk lastCkptClk cnt m =
            none := by
          unfold ckptEntry
          rw [if_neg (not_not_intro hstop.1), if_pos ⟨hst, hstop.2.2⟩]
        rw [if_pos ⟨hp ▸ hstop.1, by simpa [ringEnv] using hstop.2⟩]
        simp only [hnone]
      · have hsame : ckptEntry B s.types s.clks .bestEffort r ckptSClk lastCkptClk cnt m =
            some m := by
          unfold ckptEntry
          split
          · rfl
          · rename_i hcopy
            rw [not_not] at hcopy
            refine if_neg fun hb => hstop ⟨hcopy, ?_, hb.2⟩
            rw [← hm rfl cnt hcopy]
            exact hb.1
        rw [if_neg (by rw [← hp]; simpa [ringEnv] using hstop)]
        simp only [hsame]
        exact ih hty' hm

/-- `tvlog_reclaim_x` over the ring moves its two counters to where it moves them
over the write sets. -/
theorem tvlogReclaimX_agrees (h : Agrees T s) (mode : TvlogMode) (r : Reads) :
    ∃ T' sizes, TimeStone.tvlogReclaimX B T mode (ringEnv B s r ckptSClk lastCkptClk) ckptSClk =
        some (T', sizes) ∧
      T'.headCnt = (tvlogReclaimX B s mode r ckptSClk lastCkptClk).headCnt ∧
      T'.prevHeadCnt = (tvlogReclaimX B s mode r ckptSClk lastCkptClk).prevHeadCnt := by
  rcases h₁ : reclaimLoop B s mode r ckptSClk with ⟨passed, sets, m⟩
  rcases h₂ : ckptLoop B s mode r ckptSClk lastCkptClk sets m with ⟨ckpted, rest, m'⟩
  have hsplit := (wsLoop_rule (P := CopiesKept s mode) (C := fun _ => True) h₁
    (fun _ _ _ _ => copiesKept_reclaimEntry) (fun _ _ _ _ => trivial) fun _ _ _ => rfl)
  have htypes : ∀ sets : List WriteSet, (∀ ws ∈ sets, ws ∈ s.sets) →
      ∀ objs : List (ℕ × ObjHdr), (∃ ws ∈ sets, ws.entries = objs.map Prod.fst) →
      ∀ p ∈ objs, s.types p.1 = T.types (tvlogIndex p.1) := by
    rintro sets hsub objs ⟨ws, hws, he⟩ p hp
    refine h.types ws (hsub ws hws) p.1 ?_
    rw [he]
    exact List.mem_map_of_mem hp
  -- the first loop
  have hlen := h.sets.length_le
  have htail := h.tail
  obtain ⟨sizes, hl₁⟩ := wsLoop_agrees (P := CopiesKept s mode)
    (fun cnt => decide (cnt = T.prevHeadCnt)) (fun _ => false)
    (reclaimWs T mode (ringEnv B s r ckptSClk lastCkptClk)) h.sets
    (fun ws => by simp [h.prev]) (fun _ _ _ => copiesKept_reclaimEntry)
    (fun objs hobjs w m _ => reclaimWs_agrees (htypes s.sets (fun _ hws => hws) objs hobjs) w m)
    h.blocked h.tail (fun _ _ _ => rfl) h₁ (show s.sets.length < tvlogUsed T + 1 by
      rw [tvlogUsed]; omega)
  -- the second one, from where the first one stops
  have hsets := h.sets
  rw [← hsplit.1] at hsets
  obtain ⟨x, hx, hpost⟩ := hsets.split
  have hlen' := hpost.length_le
  obtain ⟨sizes', hl₂⟩ := wsLoop_agrees (P := CopiesKept s mode)
    (fun _ => false) (fun w => decide (gteClock B w ckptSClk))
    (ckptWs T mode (ringEnv B s r ckptSClk lastCkptClk)) hpost
    (fun ws => by simp) (fun _ _ _ => copiesKept_ckptEntry)
    (fun objs hobjs w m => ckptWs_agrees (htypes sets (fun ws hws => by
      rw [← hsplit.1]; exact List.mem_append_right _ hws) objs hobjs) w)
    h.blocked h.tail hsplit.2 h₂ (show sets.length < tvlogUsed T + 1 by
      rw [tvlogUsed]; omega)
  rw [startCnt_eq] at hl₁ hl₂
  refine ⟨{ T with headCnt := startCnt s sets, prevHeadCnt := startCnt s rest }, sizes ++ sizes',
    ?_, ?_, ?_⟩
  · rw [TimeStone.tvlogReclaimX, tvlogReclaimLoop, hl₁]
    simp only [Option.bind_eq_bind, Option.bind_some, tvlogCkptLoop]
    rw [hpost.start, hl₂]
    rfl
  · simp only [tvlogReclaimX, h₁, h₂]
  · simp only [tvlogReclaimX, h₁, h₂]

end Ring

end TimeStone.TvlogReclaim
