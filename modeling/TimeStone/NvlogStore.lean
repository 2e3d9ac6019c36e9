/-
The list of log stores and its lock (`_nvlog_store_create`, `_nvlog_store_destroy`).

Every log has a store in NVM; the stores are linked from `nvm_root_obj->next`, and
`nvlog_lock` protects the list.  `_nvlog_store_create` links the new store before it
allocates the buffer, and all its error exits go through `_nvlog_store_destroy`, which
takes the lock itself: a creation that runs out of memory returns with the lock held, or
waits for the lock that it holds (`create_waits_for_itself`).

The lock is not recursive, so a call that takes it twice does not return.  What `nvm_alloc`
returns is given with the call.

* `inv_step` — a call whose allocations succeed keeps the list and the lock;
* `callOk_iff` — the calls that return with the lock released are those;
* `stores_of_allocsOk` — the list and the lock over whole runs.
-/
import TimeStone.Config
import TimeStone.Lib.LinkedList
import TimeStone.Lib.Run

namespace TimeStone.NvlogStore

open LinkedList

/-- `nvm_root_obj->next`, the fields `next` and `_buffer` of every `ts_nvlog_store_t`, and
whether `nvlog_lock` is held.  `created` records the stores that were created and not yet
destroyed. -/
structure State where
  rootNext : Option ℕ
  next : ℕ → Option ℕ
  buffer : ℕ → Option ℕ
  locked : Bool
  created : List ℕ

/-- What becomes of a call: it returns a pointer, or it never returns. -/
inductive Outcome
  | returns (s : State) (store : Option ℕ)
  | hangs

/-- `is_power_of_2`, whose argument is an `unsigned int`. -/
def isPowerOf2 (size : ℕ) : Prop := uint size ≠ 0 ∧ uint size &&& (uint size - 1) = 0

instance (size : ℕ) : Decidable (isPowerOf2 size) := inferInstanceAs (Decidable (_ ∧ _))

/-- `pthread_mutex_lock(&nvlog_lock)`, and what the call does with the lock held. -/
def lock (s : State) (body : State → Outcome) : Outcome :=
  if s.locked then .hangs else body { s with locked := true }

/-- `pthread_mutex_unlock(&nvlog_lock)`. -/
def unlock (s : State) : State := { s with locked := false }

/-- `_nvlog_store_destroy`.  The loop over the list is entered with a first store that is
not the one to destroy, so its first round is unrolled. -/
def nvlogStoreDestroy (s : State) : Option ℕ → Outcome
  | none => .returns s none
  | some store => lock s fun s =>
    match s.rootNext with
    | none => .returns (unlock s) none
    | some first =>
      if first = store then .returns (unlock { s with rootNext := s.next first }) none
      else
        match find s.next store s.created.length first (s.next first) with
        | none => .hangs
        | some (_, none) => .returns (unlock s) none
        | some (temp, some current) =>
          .returns (unlock { s with next := Function.update s.next temp (s.next current) }) none

/-- `_nvlog_store_create`, where the two calls of `nvm_alloc` return `store` and `buf`. -/
def nvlogStoreCreate (s : State) (size : ℕ) (store buf : Option ℕ) : Outcome :=
  if ¬ isPowerOf2 size then nvlogStoreDestroy s none
  else lock s fun s =>
    match store with
    | none => nvlogStoreDestroy s none
    | some x =>
      let s :=
        { s with
          next := Function.update s.next x s.rootNext
          rootNext := some x
          buffer := Function.update s.buffer x buf }
      match buf with
      | none => nvlogStoreDestroy s (some x)
      | some _ => .returns (unlock s) (some x)

inductive Call
  | create (size : ℕ) (store buf : Option ℕ)
  | destroy (store : Option ℕ)

def call (s : State) : Call → Outcome
  | .create size store buf => nvlogStoreCreate s size store buf
  | .destroy store => nvlogStoreDestroy s store

/-- Record what a call has created or destroyed. -/
def record (s : State) : Call → Option ℕ → State
  | .create .., r => { s with created := r.toList ++ s.created }
  | .destroy none, _ => s
  | .destroy (some x), _ => { s with created := s.created.erase x }

def step (s : State) (c : Call) : Option State :=
  match call s c with
  | .returns s' r => some (record s' c r)
  | .hangs => none

/-- No log was created yet. -/
def IsInit (s : State) : Prop := s.rootNext = none ∧ s.locked = false ∧ s.created = []

/-- `nvm_alloc` returns no store that is in use. -/
def Legal (s : State) : Call → Prop
  | .create _ store _ => ∀ x ∈ store, x ∉ s.created
  | .destroy _ => True

instance (s : State) : (c : Call) → Decidable (Legal s c)
  | .create _ store _ => inferInstanceAs (Decidable (∀ x ∈ store, x ∉ s.created))
  | .destroy _ => inferInstanceAs (Decidable True)

/-- Both allocations of a creation of a power-of-two size succeed. -/
def AllocsOk : Call → Prop
  | .create size store buf => isPowerOf2 size → store ≠ none ∧ buf ≠ none
  | .destroy _ => True

instance : (c : Call) → Decidable (AllocsOk c)
  | .create .. => inferInstanceAs (Decidable (_ → _))
  | .destroy _ => inferInstanceAs (Decidable True)

/-- The calls of the runs in which no allocation fails. -/
def StepOk (s : State) (c : Call) : Prop := Legal s c ∧ AllocsOk c

instance (s : State) (c : Call) : Decidable (StepOk s c) := inferInstanceAs (Decidable (_ ∧ _))

/-- The lock is released, and the list holds the stores that were created and not yet
destroyed, each once and each with a buffer. -/
def ListOk (s : State) : Prop :=
  s.locked = false ∧ ∃ l, Chain s.next s.rootNext l ∧ l.Nodup ∧ (∀ x, x ∈ l ↔ x ∈ s.created) ∧
    ∀ x ∈ l, s.buffer x ≠ none

/-- A call returns with the lock released, and a creation that fails leaves the list as it
was. -/
def CallOk (s : State) (c : Call) : Prop :=
  ∃ s' r, call s c = .returns s' r ∧ s'.locked = false ∧
    ∀ size store buf, c = .create size store buf → r = none →
      s'.rootNext = s.rootNext ∧ s'.next = s.next ∧ s'.buffer = s.buffer

/-! ### One call -/

/-- The invariant: `created` is the list itself. -/
structure Inv (s : State) : Prop where
  lock : s.locked = false
  chain : Chain s.next s.rootNext s.created
  nodup : s.created.Nodup
  buffer : ∀ x ∈ s.created, s.buffer x ≠ none

variable {s s' : State} {size x : ℕ} {store buf : Option ℕ}

theorem erase_behind {pre post : List ℕ} {t : ℕ} (h : (pre ++ t :: x :: post).Nodup) :
    (pre ++ t :: x :: post).erase x = pre ++ t :: post := by
  have happ : pre ++ t :: x :: post = (pre ++ [t]) ++ x :: post := by simp
  rw [happ] at h ⊢
  have hnot : x ∉ pre ++ [t] := fun hx =>
    List.disjoint_of_nodup_append h hx List.mem_cons_self
  rw [List.erase_append_right _ hnot, List.erase_cons_head]
  simp

/-- `_nvlog_store_destroy` returns, and it unlinks the store if that is in the list. -/
theorem destroy_spec (h : Inv s) (x : ℕ) :
    ∃ s', nvlogStoreDestroy s (some x) = .returns s' none ∧ s'.locked = false ∧
      s'.buffer = s.buffer ∧ s'.created = s.created ∧
      Chain s'.next s'.rootNext (s.created.erase x) := by
  have hchain := h.chain
  have hnd := h.nodup
  rw [nvlogStoreDestroy, lock, if_neg (by simp [h.lock])]
  rcases hl : s.created with _ | ⟨first, l⟩
  · rw [hl] at hchain
    simp only [chain_nil_iff.mp hchain]
    exact ⟨_, rfl, rfl, rfl, rfl, .nil⟩
  rw [hl] at hchain hnd
  obtain ⟨hroot, htail⟩ := chain_cons_iff.mp hchain
  rw [hroot] at hchain
  simp only [hroot]
  by_cases hx : first = x
  · rw [if_pos hx]
    refine ⟨_, rfl, rfl, rfl, rfl, ?_⟩
    rw [hx, List.erase_cons_head]
    exact hx ▸ htail
  rw [if_neg hx]
  have hlen : l.length ≤ (first :: l).length := Nat.le_succ _
  by_cases hmem : x ∈ l
  · -- the loop stops at the store, with the one in front of it
    obtain ⟨temp, pre, post, heq, hfind⟩ := find_of_mem (t := first) htail hmem hlen
    rw [hfind]
    refine ⟨_, rfl, rfl, rfl, rfl, ?_⟩
    rw [heq] at hchain hnd ⊢
    rw [erase_behind hnd]
    exact hchain.unlink hnd
  · obtain ⟨temp, hfind⟩ := find_of_notMem (t := first) htail hmem hlen
    rw [hfind]
    refine ⟨_, rfl, rfl, rfl, rfl, ?_⟩
    rw [List.erase_of_not_mem (by simp [hmem, Ne.symm hx])]
    exact hchain

theorem Inv.of_chain (h : Inv s) {l : List ℕ} (hlock : s'.locked = false)
    (hchain : Chain s'.next s'.rootNext l) (hsub : l.Sublist s.created)
    (hbuf : s'.buffer = s.buffer) (hc : s'.created = l) : Inv s' := by
  subst hc
  exact ⟨hlock, hchain, h.nodup.sublist hsub, fun x hx => hbuf ▸ h.buffer x (hsub.subset hx)⟩

theorem inv_destroy (h : Inv s) (hs : step s (.destroy store) = some s') : Inv s' := by
  rw [step, call] at hs
  rcases store with _ | x
  · rw [nvlogStoreDestroy] at hs
    exact Option.some_inj.mp hs ▸ h
  · obtain ⟨s₁, heq, hlock, hbuf, hcr, hchain⟩ := destroy_spec h x
    rw [heq, Option.some_inj] at hs
    subst hs
    exact h.of_chain hlock hchain List.erase_sublist hbuf (by simp only [record, hcr])

/-- A creation that is not of a power-of-two size. -/
theorem create_of_not_pow (s : State) (hp : ¬ isPowerOf2 size) (store buf : Option ℕ) :
    nvlogStoreCreate s size store buf = .returns s none := by
  rw [nvlogStoreCreate, if_pos hp, nvlogStoreDestroy]

/-- A creation whose allocations succeed links the store in front. -/
theorem create_of_allocs (h : Inv s) (hp : isPowerOf2 size) (x b : ℕ) :
    nvlogStoreCreate s size (some x) (some b) = .returns
      { s with
        next := Function.update s.next x s.rootNext
        rootNext := some x
        buffer := Function.update s.buffer x (some b) } (some x) := by
  rw [nvlogStoreCreate, if_neg (not_not.mpr hp), lock, if_neg (by simp [h.lock])]
  simp only [unlock, h.lock]

theorem inv_create (h : Inv s) (hok : StepOk s (.create size store buf))
    (hs : step s (.create size store buf) = some s') : Inv s' := by
  rw [step, call] at hs
  by_cases hp : isPowerOf2 size
  · obtain ⟨hstore, hbuf⟩ := hok.2 hp
    obtain ⟨x, rfl⟩ := Option.ne_none_iff_exists'.mp hstore
    obtain ⟨b, rfl⟩ := Option.ne_none_iff_exists'.mp hbuf
    have hx : x ∉ s.created := hok.1 x rfl
    rw [create_of_allocs h hp, Option.some_inj] at hs
    subst hs
    refine ⟨h.lock, h.chain.push hx, List.nodup_cons.mpr ⟨hx, h.nodup⟩, ?_⟩
    intro y hy
    rcases List.mem_cons.mp hy with rfl | hy
    · simp [record]
    · simp only [record]
      rw [Function.update_of_ne (ne_of_mem_of_not_mem hy hx)]
      exact h.buffer y hy
  · rw [create_of_not_pow s hp, Option.some_inj] at hs
    exact hs ▸ h

theorem inv_step {c : Call} (h : Inv s) (hok : StepOk s c) (hs : step s c = some s') :
    Inv s' := by
  match c with
  | .create size store buf => exact inv_create h hok hs
  | .destroy store => exact inv_destroy h hs

theorem Inv.listOk (h : Inv s) : ListOk s :=
  ⟨h.lock, s.created, h.chain, h.nodup, fun _ => Iff.rfl, h.buffer⟩

/-- A call keeps to its contract if and only if its allocations succeed: a creation without
memory for the store leaves the lock held, and one without memory for the buffer waits for
the lock that it holds. -/
theorem callOk_iff (h : Inv s) (c : Call) : CallOk s c ↔ AllocsOk c := by
  match c with
  | .destroy none =>
    refine iff_of_true ⟨s, none, rfl, h.lock, nofun⟩ trivial
  | .destroy (some x) =>
    obtain ⟨s', heq, hlock, -⟩ := destroy_spec h x
    exact iff_of_true ⟨s', none, heq, hlock, nofun⟩ trivial
  | .create size store buf =>
    by_cases hp : isPowerOf2 size
    · rcases store with _ | x
      · -- the error exit destroys `NULL` and never unlocks
        refine iff_of_false ?_ fun hok => (hok hp).1 rfl
        rintro ⟨s', r, heq, hlock, -⟩
        rw [call, nvlogStoreCreate, if_neg (not_not.mpr hp), lock, if_neg (by simp [h.lock])] at heq
        obtain ⟨rfl, -⟩ := Outcome.returns.inj heq
        contradiction
      rcases buf with _ | b
      · refine iff_of_false ?_ fun hok => (hok hp).2 rfl
        rintro ⟨s', r, heq, -⟩
        rw [call, nvlogStoreCreate, if_neg (not_not.mpr hp), lock, if_neg (by simp [h.lock])] at heq
        contradiction
      · exact iff_of_true ⟨_, some x, create_of_allocs h hp x b, h.lock, nofun⟩
          fun _ => ⟨nofun, nofun⟩
    · refine iff_of_true ⟨s, none, create_of_not_pow s hp store buf, h.lock, ?_⟩
        fun h => absurd h hp
      exact fun _ _ _ _ _ => ⟨rfl, rfl, rfl⟩

/-! ### Runs -/

theorem Inv.init (h : IsInit s) : Inv s := by
  obtain ⟨hroot, hlock, hcr⟩ := h
  refine ⟨hlock, ?_, ?_, ?_⟩
  · rw [hroot, hcr]
    exact .nil
  · rw [hcr]
    exact .nil
  · rw [hcr]
    exact nofun

/-- In every state that a run reaches without a failed allocation, the lock is released and
the list holds the stores that were created and not destroyed; and the next call returns
with the lock released, and leaves the list as it was if it is a creation that fails, if
and only if no allocation of it fails. -/
theorem stores_of_allocsOk (h : Run.Reach IsInit step StepOk s) :
    ListOk s ∧ ∀ c, Legal s c → (CallOk s c ↔ AllocsOk c) := by
  have hinv : Inv s :=
    h.invariant (fun _ => Inv.init) fun _ _ _ hi hok hs => inv_step hi hok hs
  exact ⟨hinv.listOk, fun c _ => callOk_iff hinv c⟩

/-- An empty list, with memory that was never written. -/
def fresh : State := ⟨none, fun _ => none, fun _ => none, false, []⟩

/-- Three stores are created and the one in the middle is destroyed; a size that is no power
of two is turned down. -/
theorem stores_of_allocsOk_three :
    ∃ s, Run.Reach IsInit step StepOk s ∧ s.created = [30, 10] ∧
      ListOk s ∧ ∀ c, Legal s c → (CallOk s c ↔ AllocsOk c) := by
  have hrun : (Run.exec step StepOk fresh [.create 1024 (some 10) (some 11),
      .create 1024 (some 20) (some 21), .create 1000 none none,
      .create 4096 (some 30) (some 31), .destroy (some 20), .destroy (some 20)]).map
      (fun s => decide (s.created = [30, 10])) = some true := by
    decide +kernel
  obtain ⟨s, hr, hd⟩ : ∃ s, Run.Reach IsInit step StepOk s ∧ _ :=
    Run.Reach.exists_of_exec (.init ⟨rfl, rfl, rfl⟩) hrun
  exact ⟨s, hr, hd, stores_of_allocsOk hr⟩

/-- The first creation gets a store and no buffer: it has linked the store, and it waits
for the lock that it holds. -/
theorem create_waits_for_itself :
    ¬ ∀ s, Run.Reach IsInit step Legal s → ListOk s ∧ ∀ c, Legal s c → CallOk s c := by
  intro h
  obtain ⟨-, hcalls⟩ := h fresh (.init ⟨rfl, rfl, rfl⟩)
  obtain ⟨s', r, heq, -⟩ := hcalls (.create 1024 (some 10) none) (by decide)
  have hhangs : call fresh (.create 1024 (some 10) none) = .hangs := by rfl
  rw [hhangs] at heq
  contradiction

end TimeStone.NvlogStore
