/-
Replaying the operations (`replay_ops`).

Every operation is executed and committed on a thread.  A thread that has committed goes back
to a pool, a pointer set, from which the next operation is meant to take it, and the threads
in the pool are finished at the end.  `ptrset_push` stores at `ptrs[num_ptrs]` and then counts
up, while `ptrset_pop` reads `ptrs[num_ptrs]` before it counts down: it returns the word
behind the last pointer, which has never been written or is left from a longer pool.  What an
array fresh from `malloc` holds there is the parameter `junk`.

* `replay_balance` — if that memory is zero, the pool and the operations in flight account for
  fewer threads than were created as soon as the pool has been used;
* `replayOk_iff` — whatever the memory holds, an empty array is replayed as intended; every
  other array fails for some contents.
-/
import TimeStone.Replay
import TimeStone.PtrSet
import Mathlib.Data.List.Perm.Basic
import Mathlib.Data.List.Nodup
import Mathlib.Data.List.Count
import Mathlib.Data.Nat.Basic

namespace TimeStone.Recovery

/-- `op_type` and `opd` of a `ts_op_entry_hdr_t`. -/
structure OpHdr where
  opType : ℕ
  opd : List UInt8

/-- The calls that `replay_ops` makes. -/
inductive Event
  /-- `ts_thread_alloc` and `ts_thread_init_x` of a thread. -/
  | init (thread : ℕ)
  /-- `op_exec` for a context. -/
  | exec (thread context opType : ℕ) (opd : List UInt8)
  /-- `ts_end` for a context. -/
  | tsEnd (thread context : ℕ)
  | finish (thread : ℕ)
  | free (thread : ℕ)
  deriving DecidableEq

/-- The state of `replay_ops`: the pool, `thread` of each context, `in_recovery_mode` of each
thread, the number of threads allocated, and the calls made.  The threads are numbered from
`1` on as they are allocated. -/
structure ReplayState where
  threads : PtrSet
  thread : ℕ → ℕ
  inRecoveryMode : ℕ → Bool
  created : ℕ
  events : List Event

variable (ops : ℕ → OpHdr)

/-- `acquire_thread`, with allocations that succeed. -/
def acquireThread (s : ReplayState) (re : ReplayEntry) : ReplayState :=
  if s.thread re.context = 0 then
    let (thread, threads) := ptrsetPop s.threads
    if thread = 0 then
      { s with
        threads := threads
        thread := Function.update s.thread re.context (s.created + 1)
        created := s.created + 1
        events := s.events ++ [.init (s.created + 1)] }
    else
      { s with
        threads := threads
        thread := Function.update s.thread re.context thread }
  else s

/-- `release_thread`. -/
def releaseThread (s : ReplayState) (re : ReplayEntry) : ReplayState :=
  match re.type with
  | .exec => s
  | .commit =>
    { s with
      threads := ptrsetPush s.threads (s.thread re.context)
      thread := Function.update s.thread re.context 0 }

/-- `execute_op`.  The type that is passed to `op_exec` is that of the replay entry. -/
def executeOp (s : ReplayState) (re : ReplayEntry) : ReplayState :=
  let thread := s.thread re.context
  match re.type with
  | .exec =>
    { s with
      inRecoveryMode := Function.update s.inRecoveryMode thread true
      events := s.events ++
        [.exec thread re.context re.type.toInt32.toInt.toNat (ops re.context).opd] }
  | .commit =>
    { s with
      inRecoveryMode := Function.update s.inRecoveryMode thread true
      events := s.events ++ [.tsEnd thread re.context] }

/-- The loop of `deinit_threads` over the pool, which it makes shorter by one each time. -/
def finishThreads : ℕ → ReplayState → ReplayState
  | 0, s => s
  | fuel + 1, s =>
    let (thread, threads) := ptrsetPop s.threads
    if thread = 0 then { s with threads := threads }
    else
      finishThreads fuel
        { s with
          threads := threads
          events := s.events ++ [.finish thread, .free thread] }

/-- `deinit_threads`; `replay_ops` passes `NULL` for the thread. -/
def deinitThreads (s : ReplayState) : ReplayState := finishThreads (s.threads.numPtrs + 1) s

/-- One iteration of the loop of `replay_ops`. -/
def replayOp (s : ReplayState) (re : ReplayEntry) : ReplayState :=
  releaseThread (executeOp ops (acquireThread s re) re) re

/-- The state before the loop. -/
def replayInit (junk : ℕ → ℕ) : ReplayState :=
  ⟨⟨0, junk⟩, fun _ => 0, fun _ => false, 0, []⟩

/-- `replay_ops`: the calls it makes. -/
def replayOps (junk : ℕ → ℕ) (es : List ReplayEntry) : List Event :=
  (deinitThreads (es.foldl (replayOp ops) (replayInit junk))).events

/-- The records of a context, in the order of the array. -/
def typesOf (es : List ReplayEntry) (c : ℕ) : List ReplayType :=
  (es.filter fun re => re.context = c).map ReplayEntry.type

/-- Every context of the array has one EXEC record and, behind it, one COMMIT record. -/
def Paired (es : List ReplayEntry) : Prop :=
  ∀ c, typesOf es c = [] ∨ typesOf es c = [.exec, .commit]

/-- The operation of context `c` has been executed on `t` and not been committed. -/
def Busy (evs : List Event) (t c : ℕ) : Prop :=
  (∃ ty opd, Event.exec t c ty opd ∈ evs) ∧ ∀ t', Event.tsEnd t' c ∉ evs

/-- The call works on thread `t`. -/
def Event.UsesThread (t : ℕ) : Event → Prop
  | .exec t' .. => t' = t
  | .tsEnd t' _ => t' = t
  | _ => False

/-- What the calls of a replay are meant to be. -/
structure ReplayOk (es : List ReplayEntry) (evs : List Event) : Prop where
  /-- An operation is executed and committed on one thread. -/
  same : ∀ t t' c ty opd, Event.exec t c ty opd ∈ evs → Event.tsEnd t' c ∈ evs → t = t'
  /-- No thread works on two operations at a time. -/
  alone : ∀ first, first <+: evs → ∀ t c c', Busy first t c → Busy first t c' → c = c'
  /-- Every operation is executed once, with its own type and operands. -/
  once : ∀ re ∈ es, ∃ t, (evs.filter fun e => match e with
    | .exec _ c _ _ => c = re.context
    | _ => false) = [.exec t re.context (ops re.context).opType (ops re.context).opd]
  /-- Only threads that were initialised are used. -/
  reuse : ∀ first e, first ++ [e] <+: evs → ∀ t, e.UsesThread t → Event.init t ∈ first
  /-- Every thread that was created is finished and freed once. -/
  freed : ∀ t, Event.init t ∈ evs →
    evs.count (.finish t) = 1 ∧ evs.count (.free t) = 1

/-! ### Records of an array -/

variable {ops : ℕ → OpHdr} {es done rest : List ReplayEntry} {re : ReplayEntry} {s : ReplayState}

/-- The number of records of a type. -/
def numOf (ty : ReplayType) (es : List ReplayEntry) : ℕ := es.countP fun re => re.type = ty

theorem typesOf_append (xs ys : List ReplayEntry) (c : ℕ) :
    typesOf (xs ++ ys) c = typesOf xs c ++ typesOf ys c := by
  simp [typesOf]

theorem typesOf_singleton (re : ReplayEntry) (c : ℕ) :
    typesOf [re] c = if re.context = c then [re.type] else [] := by
  by_cases h : re.context = c <;> simp [typesOf, h]

theorem numOf_append (ty : ReplayType) (xs ys : List ReplayEntry) :
    numOf ty (xs ++ ys) = numOf ty xs + numOf ty ys :=
  List.countP_append

theorem numOf_singleton (ty : ReplayType) (re : ReplayEntry) :
    numOf ty [re] = if re.type = ty then 1 else 0 := by
  by_cases h : re.type = ty <;> simp [numOf, h]

/-- The contexts of the records of a type. -/
def contextsOf (ty : ReplayType) (es : List ReplayEntry) : List ℕ :=
  (es.filter fun re => re.type = ty).map ReplayEntry.context

theorem length_contextsOf (ty : ReplayType) (es : List ReplayEntry) :
    (contextsOf ty es).length = numOf ty es := by
  rw [contextsOf, List.length_map, numOf, List.countP_eq_length_filter]

theorem count_contextsOf (ty : ReplayType) (es : List ReplayEntry) (c : ℕ) :
    (contextsOf ty es).count c = (typesOf es c).count ty := by
  induction es with
  | nil => rfl
  | cons re es ih =>
    have hc : contextsOf ty (re :: es) =
        (if re.type = ty then [re.context] else []) ++ contextsOf ty es := by
      by_cases h : re.type = ty <;> simp [contextsOf, h]
    have hr : typesOf (re :: es) c =
        (if re.context = c then [re.type] else []) ++ typesOf es c := by
      rw [← typesOf_singleton, ← typesOf_append, List.singleton_append]
    rw [hc, hr, List.count_append, List.count_append, ih]
    congr 1
    by_cases h1 : re.type = ty <;> by_cases h2 : re.context = c <;> simp [h1, h2]

/-- An array has as many EXEC records as COMMIT records. -/
theorem Paired.numOf_eq (h : Paired es) : numOf .exec es = numOf .commit es := by
  have hperm : (contextsOf .exec es).Perm (contextsOf .commit es) := by
    rw [List.perm_iff_count]
    intro c
    rw [count_contextsOf, count_contextsOf]
    rcases h c with h | h <;> rw [h] <;> rfl
  rw [← length_contextsOf, ← length_contextsOf, hperm.length_eq]

/-- The records of a context that are behind an EXEC record and a COMMIT record of it. -/
theorem Paired.before (h : Paired (done ++ re :: rest)) :
    typesOf done re.context = match re.type with
      | .exec => []
      | .commit => [.exec] := by
  have hre : typesOf (done ++ re :: rest) re.context =
      typesOf done re.context ++ re.type :: typesOf rest re.context := by
    rw [typesOf_append, ← List.singleton_append, typesOf_append, typesOf_singleton,
      if_pos rfl, List.singleton_append]
  have h := h re.context
  rw [hre] at h
  generalize typesOf done re.context = xs at h
  rcases h with h | h
  · simp at h
  · rcases xs with _ | ⟨a, _ | ⟨b, xs⟩⟩ <;> simp_all

/-! ### Threads that are lost -/

/-- What holds after the records `done`, with a pool whose memory was zero: a context has a
thread between its two records; and as long as no thread was taken out of the pool the
threads are those in the pool and those at work, while afterwards there are more. -/
structure Balance (done : List ReplayEntry) (s : ReplayState) : Prop where
  thread : ∀ c, s.thread c ≠ 0 ↔ typesOf done c = [.exec]
  created : done ≠ [] → 0 < s.created
  init : ∀ k < s.created, Event.init (k + 1) ∈ s.events
  finish : ∀ t, Event.finish t ∉ s.events
  account :
    (s.created + numOf .commit done = s.threads.numPtrs + numOf .exec done ∧
      ∀ i, s.threads.numPtrs ≤ i → s.threads.ptrs i = 0) ∨
    s.threads.numPtrs + numOf .exec done < s.created + numOf .commit done

theorem Balance.start : Balance [] (replayInit fun _ => 0) := by
  refine ⟨?_, ?_, ?_, ?_, .inl ⟨rfl, fun _ _ => rfl⟩⟩
  · intro c
    simp [replayInit, typesOf]
  · intro h
    exact absurd rfl h
  · intro k hk
    exact absurd hk (Nat.not_lt_zero k)
  · intro t
    exact List.not_mem_nil

/-- The contexts with a thread after an EXEC record. -/
theorem thread_exec (hb : Balance done s) (htype : re.type = .exec)
    (hrec : typesOf done re.context = []) {t : ℕ} (ht : t ≠ 0) (c : ℕ) :
    Function.update s.thread re.context t c ≠ 0 ↔ typesOf (done ++ [re]) c = [.exec] := by
  rw [typesOf_append, typesOf_singleton]
  by_cases hc : c = re.context
  · subst hc
    simp [ht, hrec, htype]
  · rw [Function.update_of_ne hc, hb.thread, if_neg (Ne.symm hc), List.append_nil]

theorem Balance.exec (hb : Balance done s) (htype : re.type = .exec)
    (hrec : typesOf done re.context = []) : Balance (done ++ [re]) (replayOp ops s re) := by
  have hnull : s.thread re.context = 0 := by
    by_contra hne
    rw [(hb.thread _).mp hne] at hrec
    cases hrec
  have hx : numOf .exec (done ++ [re]) = numOf .exec done + 1 := by
    rw [numOf_append, numOf_singleton, if_pos htype]
  have hy : numOf .commit (done ++ [re]) = numOf .commit done := by
    rw [numOf_append, numOf_singleton, if_neg (by rw [htype]; decide), Nat.add_zero]
  have hacc := hb.account
  rw [replayOp, acquireThread, if_pos hnull]
  simp only [releaseThread, executeOp, htype]
  split
  · -- a new thread: none is in the pool, or the word behind the last one is `NULL`
    rename_i hpop
    refine ⟨?_, fun _ => Nat.succ_pos _, ?_, ?_, ?_⟩
    · exact fun c => thread_exec hb htype hrec (Nat.succ_ne_zero _) c
    · intro k hk
      rcases Nat.lt_succ_iff_lt_or_eq.mp hk with hk | rfl
      · simp [hb.init k hk]
      · simp
    · intro t
      simp [hb.finish t]
    · rw [hx, hy]
      simp only [ptrsetPop]
      split
      · right
        simp only
        omega
      · simp only
        rcases hacc with ⟨h1, h2⟩ | h
        · exact .inl ⟨by omega, h2⟩
        · right
          omega
  · -- a word that is not `NULL` comes from a pool that has been used
    rename_i hpop
    simp only [ptrsetPop] at hpop ⊢
    split at hpop
    · rename_i hnum
      refine ⟨?_, ?_, ?_, ?_, ?_⟩
      · exact fun c => thread_exec hb htype hrec (by rw [if_pos hnum]; exact hpop) c
      · intro _
        simp only
        rcases hacc with ⟨-, h2⟩ | h
        · exact absurd (h2 _ (Nat.le_refl _)) hpop
        · rcases done with _ | ⟨a, done⟩
          · simp only [numOf, List.countP_nil] at h
            omega
          · exact hb.created (List.cons_ne_nil _ _)
      · intro k hk
        simp [hb.init k hk]
      · intro t
        simp [hb.finish t]
      · rw [hx, hy, if_pos hnum]
        simp only
        rcases hacc with ⟨-, h2⟩ | h
        · exact absurd (h2 _ (Nat.le_refl _)) hpop
        · right
          omega
    · exact absurd rfl hpop

theorem Balance.commit (hb : Balance done s) (htype : re.type = .commit)
    (hrec : typesOf done re.context = [.exec]) : Balance (done ++ [re]) (replayOp ops s re) := by
  have hbound : s.thread re.context ≠ 0 := (hb.thread _).mpr hrec
  have hx : numOf .exec (done ++ [re]) = numOf .exec done := by
    rw [numOf_append, numOf_singleton, if_neg (by rw [htype]; decide), Nat.add_zero]
  have hy : numOf .commit (done ++ [re]) = numOf .commit done + 1 := by
    rw [numOf_append, numOf_singleton, if_pos htype]
  have hne : done ≠ [] := by
    rintro rfl
    cases hrec
  rw [replayOp, acquireThread, if_neg hbound]
  simp only [releaseThread, executeOp, htype]
  refine ⟨?_, fun _ => hb.created hne, ?_, ?_, ?_⟩
  · intro c
    rw [typesOf_append, typesOf_singleton]
    by_cases hc : c = re.context
    · subst hc
      simp [hrec, htype]
    · simp only
      rw [Function.update_of_ne hc, hb.thread, if_neg (Ne.symm hc), List.append_nil]
  · intro k hk
    simp [hb.init k hk]
  · intro t
    simp [hb.finish t]
  · rw [hx, hy]
    simp only [ptrsetPush]
    rcases hb.account with ⟨h1, h2⟩ | h
    · refine .inl ⟨by omega, fun i hi => ?_⟩
      rw [if_neg (by omega)]
      exact h2 i (by omega)
    · right
      omega

/-- The loop keeps the balance. -/
theorem replay_balance : ∀ (rest done : List ReplayEntry) (s : ReplayState), Balance done s →
    Paired (done ++ rest) → Balance (done ++ rest) (rest.foldl (replayOp ops) s) := by
  intro rest
  induction rest with
  | nil =>
    intro done s hb _
    rw [List.append_nil]
    exact hb
  | cons re rest ih =>
    intro done s hb hp
    have hbefore := hp.before
    have happ : done ++ re :: rest = done ++ [re] ++ rest := by simp
    have hstep : Balance (done ++ [re]) (replayOp ops s re) := by
      cases htype : re.type with
      | exec =>
        rw [htype] at hbefore
        exact hb.exec htype hbefore
      | commit =>
        rw [htype] at hbefore
        exact hb.commit htype hbefore
    rw [happ] at hp ⊢
    exact ih _ _ hstep hp

/-- The threads that are finished. -/
def finished (evs : List Event) : List ℕ :=
  evs.filterMap fun e => match e with
    | .finish t => some t
    | _ => none

theorem mem_finished {evs : List Event} {t : ℕ} : t ∈ finished evs ↔ Event.finish t ∈ evs := by
  simp only [finished, List.mem_filterMap]
  constructor
  · rintro ⟨e, he, heq⟩
    cases e with
    | finish t' =>
      obtain rfl := Option.some_inj.mp heq
      exact he
    | init | exec | tsEnd | free => cases heq
  · intro h
    exact ⟨_, h, rfl⟩

theorem finished_append (xs ys : List Event) :
    finished (xs ++ ys) = finished xs ++ finished ys :=
  List.filterMap_append

/-- `deinit_threads` finishes at most as many threads as the pool counts, and keeps the calls
made before. -/
theorem finishThreads_spec : ∀ (fuel : ℕ) (s : ReplayState),
    ∃ evs, (finishThreads fuel s).events = s.events ++ evs ∧
      (finished evs).length ≤ s.threads.numPtrs ∧
      (s.threads.ptrs s.threads.numPtrs = 0 → finished evs = []) := by
  intro fuel
  induction fuel with
  | zero =>
    intro s
    exact ⟨[], (List.append_nil _).symm, Nat.zero_le _, fun _ => rfl⟩
  | succ fuel ih =>
    intro s
    simp only [finishThreads]
    split
    · exact ⟨[], (List.append_nil _).symm, Nat.zero_le _, fun _ => rfl⟩
    · rename_i hpop
      simp only [ptrsetPop] at hpop ⊢
      split at hpop
      · rename_i hnum
        obtain ⟨evs, h1, h2, -⟩ := ih
          { s with
            threads := { s.threads with numPtrs := s.threads.numPtrs - 1 }
            events := s.events ++ [.finish (s.threads.ptrs s.threads.numPtrs),
              .free (s.threads.ptrs s.threads.numPtrs)] }
        simp only [if_pos hnum]
        refine ⟨_, h1.trans (List.append_assoc _ _ _), ?_, fun h => absurd h hpop⟩
        rw [finished_append, List.length_append]
        have hone : ∀ t, (finished [.finish t, .free t]).length = 1 := fun _ => rfl
        simp only at h2
        rw [hone]
        omega
      · exact absurd rfl hpop

/-- A thread of a non-empty array is not finished if the memory of the pool was zero. -/
theorem not_freed (ops : ℕ → OpHdr) (hp : Paired es) (hne : es ≠ []) :
    ∃ t, Event.init t ∈ replayOps ops (fun _ => 0) es ∧
      Event.finish t ∉ replayOps ops (fun _ => 0) es := by
  have hb : Balance es (es.foldl (replayOp ops) (replayInit fun _ => 0)) :=
    replay_balance es [] _ .start hp
  rw [replayOps, deinitThreads]
  generalize es.foldl (replayOp ops) (replayInit fun _ => 0) = s at hb
  obtain ⟨evs, hevs, hlen, hnull⟩ := finishThreads_spec (s.threads.numPtrs + 1) s
  rw [hevs]
  have hcount := hp.numOf_eq
  have hpos := hb.created hne
  -- fewer threads are finished than were created
  have hlt : (finished evs).length < s.created := by
    rcases hb.account with ⟨-, h2⟩ | h
    · rw [hnull (h2 _ (Nat.le_refl _))]
      exact hpos
    · omega
  have hex : ∃ k < s.created, k + 1 ∉ finished evs := by
    by_contra hall
    push Not at hall
    have hsub : (List.range s.created).map (· + 1) ⊆ finished evs := by
      intro t ht
      obtain ⟨k, hk, rfl⟩ := List.mem_map.mp ht
      exact hall k (List.mem_range.mp hk)
    have hnodup : ((List.range s.created).map (· + 1)).Nodup :=
      List.nodup_range.map fun _ _ h => Nat.succ.inj h
    have hle := (List.subperm_of_subset hnodup hsub).length_le
    rw [List.length_map, List.length_range] at hle
    omega
  obtain ⟨k, hk, hmem⟩ := hex
  refine ⟨k + 1, List.mem_append_left _ (hb.init k hk), fun h => ?_⟩
  rcases List.mem_append.mp h with h | h
  · exact hb.finish _ h
  · exact hmem (mem_finished.mpr h)

theorem replayOk_nil (junk : ℕ → ℕ) : ReplayOk ops [] (replayOps ops junk []) := by
  have hevs : replayOps ops junk [] = [] := rfl
  rw [hevs]
  refine ⟨?_, ?_, ?_, ?_, ?_⟩
  · intro t t' c ty opd h
    cases h
  · rintro first hf t c c' ⟨⟨ty, opd, h⟩, -⟩
    rw [List.prefix_nil.mp hf] at h
    cases h
  · intro re h
    cases h
  · intro first e hf
    have := List.prefix_nil.mp hf
    simp at this
  · intro t h
    cases h

/-- `replay_ops` makes the calls it is meant to make, whatever the memory of the pool holds,
if and only if there is no operation to replay. -/
theorem replayOk_iff (ops : ℕ → OpHdr) (hp : Paired es) :
    (∀ junk, ReplayOk ops es (replayOps ops junk es)) ↔ es = [] := by
  constructor
  · intro h
    by_contra hne
    obtain ⟨t, hinit, hfinish⟩ := not_freed ops hp hne
    have hcount := ((h fun _ => 0).freed t hinit).1
    rw [List.count_eq_zero_of_not_mem hfinish] at hcount
    cases hcount
  · rintro rfl
    exact replayOk_nil

/-- Two operations that overlap. -/
def overlapping : List ReplayEntry :=
  [⟨1, .exec, 0⟩, ⟨2, .exec, 1⟩, ⟨3, .commit, 0⟩, ⟨4, .commit, 1⟩]

theorem overlapping_paired : Paired overlapping := by
  intro c
  match c with
  | 0 => exact .inr rfl
  | 1 => exact .inr rfl
  | c + 2 => exact .inl (by simp [typesOf, overlapping])

theorem replayOk_iff_overlapping :
    Paired overlapping ∧
      ((∀ junk, ReplayOk (fun _ => ⟨0, []⟩) overlapping
        (replayOps (fun _ => ⟨0, []⟩) junk overlapping)) ↔ overlapping = []) :=
  ⟨overlapping_paired, replayOk_iff _ overlapping_paired⟩

/-- One operation of type 7.  The word behind the pool is `NULL`, so that its thread is not
finished; and `op_exec` is called with type 0. -/
theorem replay_one_op :
    ¬ ∀ (ops : ℕ → OpHdr) (es : List ReplayEntry) (junk : ℕ → ℕ), Paired es →
      ReplayOk ops es (replayOps ops junk es) := by
  intro h
  have hp : Paired [⟨1, .exec, 0⟩, ⟨2, .commit, 0⟩] := by
    intro c
    match c with
    | 0 => exact .inr rfl
    | c + 1 => exact .inl (by simp [typesOf])
  have hok := h (fun _ => ⟨7, []⟩) _ (fun _ => 0) hp
  have hevs : replayOps (fun _ => ⟨7, []⟩) (fun _ => 0)
      [⟨1, .exec, 0⟩, ⟨2, .commit, 0⟩] = [.init 1, .exec 1 0 0 [], .tsEnd 1 0] := by decide
  rw [hevs] at hok
  have hcount := (hok.freed 1 (by decide)).1
  exact absurd hcount (by decide)

end TimeStone.Recovery
