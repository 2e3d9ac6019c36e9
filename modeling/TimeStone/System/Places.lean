/-
Where the copies are in the transient version logs.

The log of a thread is a ring.  `tvlog_append_begin` puts a copy at `tail_cnt`: behind the
header of the write set, which the first lock of a transaction appends, and behind a filler
where the ring would end inside the copy.  `ts_abort` takes the tail back to where the write
set began, and the head of the log is where its oldest write set starts.  So the address of
a copy follows from the sizes of the objects that were locked before it.

A lock does not look whether its copy fits.  `Fits` is the condition: the copy ends before
the head, one round of the ring later, and a filler is not longer than its header can say.

* `Placed` — the copies in a log are in order and less than one round of the ring apart;
* `Placed.addr_inj` — so they have different addresses;
* `Placed.lock`, `Placed.abort`, `Placed.frame`, `Placed.commit` — the steps keep this.
-/
import TimeStone.System.Live
import TimeStone.TvlogSpace

namespace TimeStone.System

open ThreadLogs (entryEnd)

variable {α β : Type*}

/-- The logs in which the copies are, the log counters of the copies and of the starts of
their write sets, and the `tail_cnt` of the logs. -/
structure Places where
  log : ℕ → ℕ
  cnt : ℕ → ℕ
  start : ℕ → ℕ
  tail : ℕ → ℕ

namespace Places

/-- Empty logs. -/
def initial : Places := ⟨fun _ => 0, fun _ => 0, fun _ => 0, fun _ => 0⟩

variable (p : Places) (s : State α β)

/-- The address of a copy: the log and the place in its ring. -/
def addr (k : ℕ) : ℕ × ℕ := (p.log k, tvlogIndex (p.cnt k))

/-- `head_cnt`. -/
def head (t : ℕ) : ℕ :=
  match s.inLog t with
  | [] => p.tail t
  | k :: _ => p.start k

/-- `tvlog_used`. -/
def used (t : ℕ) : ℕ := p.tail t - p.head s t

/-- `start_tail_cnt` of the write set of the next lock. -/
def wsStart (t : ℕ) : ℕ :=
  match s.ws t with
  | [] => roomTail (p.tail t) wsEntrySize
  | k :: _ => p.start k

/-- Where the object of the next lock is allocated: behind the header of the write set. -/
def lockStart (t : ℕ) : ℕ := if s.ws t = [] then entryEnd (p.tail t) sizeofWrtSet else p.tail t

/-- `tvlog_append_begin` and `tvlog_append_end`, for an object of `size` bytes. -/
def lock (t size : ℕ) : Places where
  log := Function.update p.log s.numCopies t
  cnt := Function.update p.cnt s.numCopies (roomTail (p.lockStart s t) (tvlogEntrySize size))
  start := Function.update p.start s.numCopies (p.wsStart s t)
  tail := Function.update p.tail t (entryEnd (p.lockStart s t) size)

/-- `tvlog_abort`. -/
def abort (t : ℕ) : Places :=
  match s.ws t with
  | [] => p
  | k :: _ => { p with tail := Function.update p.tail t (p.start k) }

/-- The condition on a lock.  Its entry ends before the head, one round of the ring later; no
filler is needed in front of the header of the write set, and one in front of the object is
shorter than 64 KB. -/
def Fits (t size : ℕ) : Prop :=
  tvlogAccepts size ∧ entryEnd (p.lockStart s t) size ≤ p.head s t + tvlogSize ∧
    (s.ws t = [] → ¬ tvlogWraps (p.tail t) wsEntrySize) ∧
    (tvlogWraps (p.lockStart s t) (tvlogEntrySize size) →
      tvlogBogusSize (p.lockStart s t) < 2 ^ 16)

instance (t size : ℕ) : Decidable (p.Fits s t size) := inferInstanceAs (Decidable (_ ∧ _))

end Places

/-- The copies in the logs are in order, behind the starts of their write sets, and inside
one round of the ring. -/
structure Placed (s : State α β) (p : Places) : Prop where
  log : ∀ t, ∀ k ∈ s.inLog t, p.log k = t
  sorted : ∀ t, (s.inLog t).Pairwise fun k j => p.cnt k < p.cnt j ∧ p.start k ≤ p.start j
  start : ∀ t, ∀ k ∈ s.inLog t, p.start k ≤ p.cnt k
  tail : ∀ t, ∀ k ∈ s.inLog t, p.cnt k < p.tail t
  ws : ∀ t, ∀ j ∈ s.ws t, (∀ i ∈ s.ws t, p.start i = p.start j) ∧
    ∀ k ∈ s.logged t, p.cnt k < p.start j
  cap : ∀ t, p.tail t ≤ p.head s t + tvlogSize

variable {s s' : State α β} {p : Places} {t k j : ℕ}

/-! ### Addresses -/

theorem head_of_nil (hl : s.inLog t = []) : p.head s t = p.tail t := by
  rw [Places.head, hl]

theorem head_of_cons {ks : List ℕ} (hl : s.inLog t = k :: ks) : p.head s t = p.start k := by
  rw [Places.head, hl]

theorem Placed.head_le (h : Placed s p) (hk : k ∈ s.inLog t) : p.head s t ≤ p.start k := by
  have hsort := h.sorted t
  cases hl : s.inLog t with
  | nil =>
    rw [hl] at hk
    cases hk
  | cons i is =>
    rw [head_of_cons hl]
    rw [hl] at hk hsort
    rcases List.mem_cons.mp hk with rfl | hk
    · exact le_refl _
    · exact ((List.pairwise_cons.mp hsort).1 k hk).2

theorem Placed.head_le_tail (h : Placed s p) (t : ℕ) : p.head s t ≤ p.tail t := by
  cases hl : s.inLog t with
  | nil => exact (head_of_nil hl).le
  | cons i is =>
    have hi : i ∈ s.inLog t := by
      rw [hl]
      exact List.mem_cons_self
    rw [head_of_cons hl]
    exact (h.start t i hi).trans (h.tail t i hi).le

/-- A copy is in a log only once, and two copies are at two places. -/
theorem Placed.cnt_inj (h : Placed s p) (hk : k ∈ s.inLog t) (hj : j ∈ s.inLog t)
    (he : p.cnt k = p.cnt j) : k = j := by
  refine List.Pairwise.forall_of_forall_of_flip (R := fun k j => p.cnt k = p.cnt j → k = j)
    (fun _ _ _ => rfl) ((h.sorted t).imp ?_) ((h.sorted t).imp ?_) hk hj he
  · exact fun hlt he => absurd he hlt.1.ne
  · exact fun hlt he => absurd he hlt.1.ne'

theorem Placed.addr_inj {u : ℕ} (h : Placed s p) (hk : k ∈ s.inLog t) (hj : j ∈ s.inLog u)
    (he : p.addr k = p.addr j) : k = j := by
  obtain ⟨hlog, hidx⟩ := Prod.mk.inj he
  rw [h.log t k hk, h.log u j hj] at hlog
  subst hlog
  -- both are in the round of the ring that begins at the head
  have hk1 := h.head_le hk
  have hk2 := h.start t k hk
  have hk3 := h.tail t k hk
  have hj1 := h.head_le hj
  have hj2 := h.start t j hj
  have hj3 := h.tail t j hj
  have hcap := h.cap t
  have hround : ∀ {x y}, p.head s t ≤ x → x ≤ y → y < p.head s t + tvlogSize →
      tvlogIndex x = tvlogIndex y → x = y := by
    intro x y hx hxy hy hidx
    rw [tvlogIndex, tvlogIndex] at hidx
    have hsub := Nat.sub_mod_eq_zero_of_mod_eq hidx.symm
    rw [Nat.mod_eq_of_lt (by omega)] at hsub
    omega
  refine h.cnt_inj hk hj ?_
  rcases Nat.le_total (p.cnt k) (p.cnt j) with hle | hle
  · exact hround (by omega) hle (by omega) hidx
  · exact (hround (by omega) hle (by omega) hidx.symm).symm

/-! ### Steps -/

theorem ws_reapThread (s : State α β) (B t : ℕ) : (s.reapThread B t).ws = s.ws := by
  have hlogs : (s.reapLogs B t).ws = s.ws := (reapLogs_frame s B t).1.ws
  exact reapThread_rule (P := fun s₁ => s₁.ws = s.ws) hlogs (fun _ => hlogs) fun _ => hlogs

theorem Placed.initial (org : ℕ → α) : Placed (System.initial org : State α β) .initial where
  log := fun _ _ hk => absurd hk List.not_mem_nil
  sorted := fun _ => List.Pairwise.nil
  start := fun _ _ hk => absurd hk List.not_mem_nil
  tail := fun _ _ hk => absurd hk List.not_mem_nil
  ws := fun _ _ hk => absurd hk List.not_mem_nil
  cap := fun _ => Nat.zero_le _

/-- The head moves forward when copies leave the log. -/
theorem Placed.head_mono (h : Placed s p) (hsub : (s'.inLog t).Sublist (s.inLog t)) :
    p.head s t ≤ p.head s' t := by
  cases hl : s'.inLog t with
  | nil =>
    rw [head_of_nil hl]
    exact h.head_le_tail t
  | cons k ks =>
    rw [head_of_cons hl]
    refine h.head_le (hsub.subset ?_)
    rw [hl]
    exact List.mem_cons_self

/-- A step that reclaims logs, or leaves them alone. -/
theorem Placed.frame (h : Placed s p) (hlog : ∀ t, (s'.logged t).Sublist (s.logged t))
    (hws : s'.ws = s.ws) : Placed s' p := by
  have hsub : ∀ t, (s'.inLog t).Sublist (s.inLog t) := by
    intro t
    rw [State.inLog, State.inLog, hws]
    exact (hlog t).append_right _
  exact {
    log := fun t k hk => h.log t k ((hsub t).subset hk)
    sorted := fun t => (h.sorted t).sublist (hsub t)
    start := fun t k hk => h.start t k ((hsub t).subset hk)
    tail := fun t k hk => h.tail t k ((hsub t).subset hk)
    ws := fun t j hj => by
      rw [hws] at hj ⊢
      exact (h.ws t j hj).imp_right fun hlt k hk => hlt k ((hlog t).subset hk)
    cap := fun t => (h.cap t).trans (Nat.add_le_add_right (h.head_mono (hsub t)) _) }

/-- `tvlog_commit`: the copies stay where they are. -/
theorem Placed.commit (h : Placed s p) (hin : ∀ t, s'.inLog t = s.inLog t)
    (hws : ∀ t, s'.ws t = s.ws t ∧ s'.logged t = s.logged t ∨ s'.ws t = []) : Placed s' p where
  log := fun t k hk => h.log t k (hin t ▸ hk)
  sorted := fun t => hin t ▸ h.sorted t
  start := fun t k hk => h.start t k (hin t ▸ hk)
  tail := fun t k hk => h.tail t k (hin t ▸ hk)
  ws := by
    intro t j hj
    rcases hws t with ⟨h1, h2⟩ | he
    · rw [h1] at hj ⊢
      rw [h2]
      exact h.ws t j hj
    · rw [he] at hj
      cases hj
  cap := by
    intro t
    have hcap := h.cap t
    rw [Places.head] at hcap ⊢
    rw [hin]
    exact hcap

/-- Only locks, commits and aborts change the write sets. -/
theorem ws_step {B : ℕ} {op : Op α β} (hop : op.Plain) (ha : ∀ t, op ≠ .abort t)
    (hs : step B s op = some s') : s'.ws = s.ws := by
  cases Step.of_step hs with
  | begin => exact hop.elim
  | lock => exact hop.elim
  | free => exact hop.elim
  | endRead => exact hop.elim
  | endTx => exact hop.elim
  | abort t => exact absurd rfl (ha t)
  | tvlogReclaim t => exact (quiet_tvlogReclaim s t).ws
  | ckptlogReclaim t wb => exact (quiet_ckptlogReclaim s t wb).ws
  | zombinize t =>
    unfold State.zombinize
    split <;> rfl
  | threadFree t =>
    unfold State.threadFree
    dsimp only
    split <;> rfl
  | reap t => exact ws_reapThread s B t
  | _ => rfl

/-- `tvlog_abort`: the tail goes back behind the committed write sets. -/
theorem Placed.abort (h : Placed s p) (hlog : ∀ u, s'.logged u = s.logged u)
    (hws : s'.ws = Function.update s.ws t []) : Placed s' (p.abort s t) := by
  have hother : ∀ u ≠ t, s'.ws u = s.ws u := fun u hu => by rw [hws, Function.update_of_ne hu]
  have hself : s'.ws t = [] := by rw [hws, Function.update_self]
  have hsub : ∀ u, (s'.inLog u).Sublist (s.inLog u) := by
    intro u
    rw [State.inLog, State.inLog, hlog]
    refine List.Sublist.append_left ?_ _
    by_cases hu : u = t
    · rw [hu, hself]
      exact List.nil_sublist _
    · rw [hother u hu]
  -- without a lock there is no write set, and the tail has not moved
  cases hl : s.ws t with
  | nil =>
    have hsame : p.abort s t = p := by rw [Places.abort, hl]
    rw [hsame]
    refine h.frame (fun u => by rw [hlog]) (funext fun u => ?_)
    by_cases hu : u = t
    · rw [hu, hself, hl]
    · exact hother u hu
  | cons i is =>
    have hsame : p.abort s t = { p with tail := Function.update p.tail t (p.start i) } := by
      rw [Places.abort, hl]
    have hi : i ∈ s.ws t := by
      rw [hl]
      exact List.mem_cons_self
    rw [hsame]
    refine {
      log := fun u k hk => h.log u k ((hsub u).subset hk)
      sorted := fun u => (h.sorted u).sublist (hsub u)
      start := fun u k hk => h.start u k ((hsub u).subset hk)
      tail := fun u k hk => ?_
      ws := fun u j hj => ?_
      cap := fun u => ?_ }
    · show p.cnt k < Function.update p.tail t (p.start i) u
      by_cases hu : u = t
      · subst hu
        rw [Function.update_self]
        rw [State.inLog, hself, List.append_nil, hlog] at hk
        exact (h.ws u i hi).2 k hk
      · rw [Function.update_of_ne hu]
        exact h.tail u k ((hsub u).subset hk)
    · by_cases hu : u = t
      · rw [hu, hself] at hj
        cases hj
      · rw [hother u hu] at hj ⊢
        rw [hlog]
        exact h.ws u j hj
    · -- the head moves only forward, and the tail only back
      have hmono := h.head_mono (hsub u)
      have hcap := h.cap u
      have hlt := h.tail t i (List.mem_append_right _ hi)
      have hle := h.start t i (List.mem_append_right _ hi)
      show Function.update p.tail t (p.start i) u ≤ _
      cases hin : s'.inLog u with
      | nil =>
        rw [head_of_nil hin]
        exact Nat.le_add_right _ _
      | cons k ks =>
        rw [head_of_cons hin] at hmono ⊢
        show _ ≤ p.start k + tvlogSize
        by_cases hu : u = t
        · subst hu
          rw [Function.update_self]
          omega
        · rw [Function.update_of_ne hu]
          omega

theorem roomTail_le_entryEnd (t size : ℕ) :
    roomTail t (tvlogEntrySize size) + tvlogEntrySize size ≤ entryEnd t size := by
  rw [roomTail, entryEnd]
  split <;> omega

/-- The next lock puts its copy behind the tail and behind the start of its write set. -/
theorem Placed.lockStart_le (h : Placed s p) (t : ℕ) :
    p.tail t ≤ p.lockStart s t ∧ p.wsStart s t ≤ p.lockStart s t := by
  rw [Places.lockStart, Places.wsStart]
  cases hl : s.ws t with
  | nil =>
    have hroom := roomTail_le_entryEnd (p.tail t) sizeofWrtSet
    have hle := le_roomTail (p.tail t) wsEntrySize
    rw [if_pos rfl]
    change p.tail t ≤ roomTail (p.tail t) (tvlogEntrySize sizeofWrtSet) at hle
    change _ ∧ roomTail (p.tail t) (tvlogEntrySize sizeofWrtSet) ≤ _
    omega
  | cons i is =>
    have hi : i ∈ s.inLog t := by
      rw [State.inLog, hl]
      exact List.mem_append_right _ List.mem_cons_self
    rw [if_neg (List.cons_ne_nil _ _)]
    exact ⟨le_refl _, (h.start t i hi).trans (h.tail t i hi).le⟩

/-- The write set of the next lock starts behind those of the copies in the log, and behind
the committed copies themselves. -/
theorem Placed.le_wsStart (h : Placed s p) (t : ℕ) :
    (∀ k ∈ s.inLog t, p.start k ≤ p.wsStart s t) ∧ ∀ k ∈ s.logged t, p.cnt k < p.wsStart s t := by
  rw [Places.wsStart]
  cases hl : s.ws t with
  | nil =>
    have hle := le_roomTail (p.tail t) wsEntrySize
    refine ⟨fun k hk => ?_, fun k hk => ?_⟩
    · exact ((h.start t k hk).trans (h.tail t k hk).le).trans hle
    · exact (h.tail t k (List.mem_append_left _ hk)).trans_le hle
  | cons i is =>
    have hi : i ∈ s.ws t := by
      rw [hl]
      exact List.mem_cons_self
    obtain ⟨hsame, hlt⟩ := h.ws t i hi
    refine ⟨fun k hk => ?_, hlt⟩
    rcases List.mem_append.mp hk with hk | hk
    · exact (h.start t k (List.mem_append_left _ hk)).trans (hlt k hk).le
    · exact (hsame k hk).le

theorem abort_log (p : Places) (s : State α β) (t : ℕ) :
    (p.abort s t).log = p.log ∧ (p.abort s t).addr = p.addr := by
  rw [Places.abort]
  split <;> exact ⟨rfl, rfl⟩

/-! ### Locks -/

section Lock

variable {o size : ℕ} {kind : Kind}

theorem ws_lock (u : ℕ) :
    (s.lock t o kind).ws u = if u = t then s.ws t ++ [s.numCopies] else s.ws u := by
  show Function.update s.ws t (s.ws t ++ [s.numCopies]) u = _
  rw [Function.update_apply]

theorem inLog_lock (u : ℕ) :
    (s.lock t o kind).inLog u = if u = t then s.inLog t ++ [s.numCopies] else s.inLog u := by
  show s.logged u ++ (s.lock t o kind).ws u = _
  rw [ws_lock]
  split
  · rename_i hu
    rw [hu, ← List.append_assoc]
    rfl
  · rfl

/-- A copy in a log is the new one, or was there before. -/
theorem mem_inLog_lock {u : ℕ} (hk : k ∈ (s.lock t o kind).inLog u) :
    u = t ∧ k = s.numCopies ∨ k ∈ s.inLog u := by
  rw [inLog_lock] at hk
  split at hk
  · rename_i hu
    subst hu
    rcases List.mem_append.mp hk with hk | hk
    · exact Or.inr hk
    · exact Or.inl ⟨rfl, List.mem_singleton.mp hk⟩
  · exact Or.inr hk

/-- Where the new copy is. -/
theorem places_lock_new (p : Places) (s : State α β) (t size : ℕ) :
    (p.lock s t size).log s.numCopies = t ∧
      (p.lock s t size).cnt s.numCopies = roomTail (p.lockStart s t) (tvlogEntrySize size) ∧
      (p.lock s t size).start s.numCopies = p.wsStart s t :=
  ⟨Function.update_self _ _ _, Function.update_self _ _ _, Function.update_self _ _ _⟩

/-- The other copies stay where they are. -/
theorem places_lock_old (hk : k ≠ s.numCopies) : (p.lock s t size).log k = p.log k ∧
    (p.lock s t size).cnt k = p.cnt k ∧ (p.lock s t size).start k = p.start k :=
  ⟨Function.update_of_ne hk _ _, Function.update_of_ne hk _ _, Function.update_of_ne hk _ _⟩

theorem addr_lock_old (hk : k ≠ s.numCopies) : (p.lock s t size).addr k = p.addr k := by
  have hlog : (p.lock s t size).log k = p.log k := (places_lock_old hk).1
  have hcnt : (p.lock s t size).cnt k = p.cnt k := (places_lock_old hk).2.1
  rw [Places.addr, Places.addr, hlog, hcnt]

theorem tail_lock (u : ℕ) : (p.lock s t size).tail u =
    if u = t then entryEnd (p.lockStart s t) size else p.tail u := by
  show Function.update p.tail t _ u = _
  rw [Function.update_apply]

/-- A lock does not move the head back. -/
theorem head_le_lock (hlt : ∀ u, ∀ k ∈ s.inLog u, k < s.numCopies) (u : ℕ) :
    p.head s u ≤ (p.lock s t size).head (s.lock t o kind) u := by
  have hin : (s.lock t o kind).inLog u =
      if u = t then s.inLog t ++ [s.numCopies] else s.inLog u := inLog_lock u
  cases hl : s.inLog u with
  | nil =>
    rw [head_of_nil hl]
    by_cases hu : u = t
    · subst hu
      rw [if_pos rfl, hl, List.nil_append] at hin
      have hws : s.ws u = [] := (List.append_eq_nil_iff.mp hl).2
      rw [head_of_cons hin, (places_lock_new p s u size).2.2, Places.wsStart, hws]
      exact le_roomTail _ _
    · rw [if_neg hu, hl] at hin
      rw [head_of_nil hin, tail_lock, if_neg hu]
  | cons k ks =>
    have hk : k ∈ s.inLog u := by
      rw [hl]
      exact List.mem_cons_self
    have hcons : ∃ js, (s.lock t o kind).inLog u = k :: js := by
      rw [hin]
      split
      · rename_i hu
        subst hu
        exact ⟨ks ++ [s.numCopies], by rw [hl, List.cons_append]⟩
      · exact ⟨ks, hl⟩
    obtain ⟨js, hjs⟩ := hcons
    rw [head_of_cons hl, head_of_cons hjs, (places_lock_old (hlt u k hk).ne).2.2]

/-- A lock that fits puts its copy behind the copies in the log. -/
theorem Placed.lock (h : Placed s p) (hfit : p.Fits s t size)
    (hlt : ∀ u, ∀ k ∈ s.inLog u, k < s.numCopies) : Placed (s.lock t o kind) (p.lock s t size) := by
  obtain ⟨h1, h2⟩ := h.lockStart_le t
  obtain ⟨h3, h4⟩ := h.le_wsStart t
  obtain ⟨hlogn, hcntn, hstartn⟩ := places_lock_new p s t size
  have hend := roomTail_le_entryEnd (p.lockStart s t) size
  have hroom := le_roomTail (p.lockStart s t) (tvlogEntrySize size)
  have hpos : 0 < tvlogEntrySize size := by
    rw [tvlogEntrySize_eq hfit.1.1]
    omega
  have hold : ∀ {u k}, k ∈ s.inLog u → (p.lock s t size).log k = p.log k ∧
      (p.lock s t size).cnt k = p.cnt k ∧ (p.lock s t size).start k = p.start k :=
    fun hk => places_lock_old (hlt _ _ hk).ne
  have hheld : ∀ {u k}, k ∈ s.ws u → k ∈ s.inLog u := fun hk => List.mem_append_right _ hk
  refine {
    log := fun u k hk => ?_
    sorted := fun u => ?_
    start := fun u k hk => ?_
    tail := fun u k hk => ?_
    ws := fun u j hj => ?_
    cap := fun u => ?_ }
  · rcases mem_inLog_lock hk with ⟨rfl, rfl⟩ | hk
    · exact hlogn
    · rw [(hold hk).1]
      exact h.log u k hk
  · have hsort : (s.inLog u).Pairwise fun k j => (p.lock s t size).cnt k <
        (p.lock s t size).cnt j ∧ (p.lock s t size).start k ≤ (p.lock s t size).start j := by
      refine (h.sorted u).imp_of_mem fun hk hj hlt => ?_
      rw [(hold hk).2.1, (hold hk).2.2, (hold hj).2.1, (hold hj).2.2]
      exact hlt
    rw [inLog_lock]
    split
    · rename_i hu
      subst hu
      refine List.pairwise_append.mpr ⟨hsort, List.pairwise_singleton _ _, fun k hk j hj => ?_⟩
      rw [List.mem_singleton.mp hj, (hold hk).2.1, (hold hk).2.2, hcntn, hstartn]
      have := h.tail u k hk
      exact ⟨by omega, h3 k hk⟩
    · exact hsort
  · rcases mem_inLog_lock hk with ⟨rfl, rfl⟩ | hk
    · rw [hcntn, hstartn]
      omega
    · rw [(hold hk).2.1, (hold hk).2.2]
      exact h.start u k hk
  · rw [tail_lock]
    rcases mem_inLog_lock hk with ⟨rfl, rfl⟩ | hk
    · rw [if_pos rfl, hcntn]
      omega
    · rw [(hold hk).2.1]
      have htail := h.tail u k hk
      split
      · rename_i hu
        rw [hu] at htail
        omega
      · exact htail
  · by_cases hu : u = t
    · subst hu
      have hall : ∀ i ∈ (s.lock u o kind).ws u, (p.lock s u size).start i = p.wsStart s u := by
        intro i hi
        rw [ws_lock, if_pos rfl] at hi
        rcases List.mem_append.mp hi with hi | hi
        · -- the write set is open, and starts where its first copy says
          rw [(hold (hheld hi)).2.2, Places.wsStart]
          cases hl : s.ws u with
          | nil =>
            rw [hl] at hi
            cases hi
          | cons k ks =>
            have hk : k ∈ s.ws u := by
              rw [hl]
              exact List.mem_cons_self
            exact (h.ws u k hk).1 i hi
        · rw [List.mem_singleton.mp hi, hstartn]
      refine ⟨fun i hi => (hall i hi).trans (hall j hj).symm, fun k hk => ?_⟩
      rw [hall j hj, (hold (List.mem_append_left _ hk)).2.1]
      exact h4 k hk
    · rw [ws_lock, if_neg hu] at hj ⊢
      obtain ⟨hsame, hlt⟩ := h.ws u j hj
      rw [(hold (hheld hj)).2.2]
      refine ⟨fun i hi => ?_, fun k hk => ?_⟩
      · rw [(hold (hheld hi)).2.2]
        exact hsame i hi
      · rw [(hold (List.mem_append_left _ hk)).2.1]
        exact hlt k hk
  · refine le_trans ?_ (Nat.add_le_add_right (head_le_lock hlt u) tvlogSize)
    rw [tail_lock]
    split
    · rename_i hu
      rw [hu]
      exact hfit.2.1
    · exact h.cap u

end Lock

end TimeStone.System
