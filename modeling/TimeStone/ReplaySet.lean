/-
Which operations are replayed (`recovery.c`).

The replay array should have an EXEC and a COMMIT record of every operation that the checkpoint
does not cover.  The scans take an operation by its local clock, while `oplog_reclaim` and the
checkpoint go by its write clock, so that an operation that straddles the checkpoint is lost
(`straddling_op_not_replayed`).

* `recordsOf_of_mem` — an operation that the scans accept has one record of each type;
* `ReplaysAll.room` — the records of too many operations go beyond the array;
* `replayed_iff` — when recovery builds an array with all operations that the checkpoint does
  not cover;
* `opsOrdered_records` — the array is of the kind that `Replay` sorts.
-/
import TimeStone.ReplayScan
import TimeStone.Replay
import TimeStone.Clock
import Mathlib.Data.List.Induction
import Mathlib.Data.List.Nodup

namespace TimeStone.ReplayScan

open Recovery (ReplayType)

/-- `e` is the operation at counter `x` of the log number `i`, a normal operational log. -/
def OpAt (logs : List PersistentLog) (i x : ℕ) (e : NvlogEntry OpEntryHdr) : Prop :=
  ∃ p, logs[i]? = some p ∧ p.IsOplog ∧ (x, e) ∈ p.items ∧ e.type = .entry

/-- The records whose context is the operation at `q`, a log and a counter. -/
def Collect.recordsOf (c : Collect) (q : ℕ × ℕ) : List ReplayEntry :=
  (c.replay.map Prod.snd).filter fun r =>
    decide ((r.context, q) ∈ c.contexts.map fun y => (y.1, y.2.opEntry))

/-- The stores to an array are inside of its bytes, and no two go to one place. -/
structure InRoom {α : Type} (size bytes : ℕ) (stores : List (ℤ × α)) : Prop where
  inside : ∀ x ∈ stores, 0 ≤ x.1 ∧ size * (x.1 + 1) ≤ bytes
  once : (stores.map Prod.fst).Nodup

/-- Recovery builds the replay array and the context array, and every operation that the
checkpoint of the clock `last` does not cover has exactly one EXEC record with its local clock
and one COMMIT record with its write clock. -/
def ReplaysAll (B last : ℕ) (logs : List PersistentLog) : Prop :=
  ∃ a c n stores', allocReplayArray last (logs.map PersistentLog.toNvlogStore) = some a ∧
    collectReplayEntries last a.stores = some (c, n, stores') ∧
    InRoom sizeofReplayEntry a.replayBytes c.replay ∧
    InRoom sizeofOpContext a.contextBytes c.contexts ∧
    ∀ i x e, OpAt logs i x e → gteClock B e.wrtClk last →
      ∃ k, c.recordsOf (i, x) = [⟨opLocalClk e, .exec, k⟩, ⟨e.wrtClk, .commit, k⟩]

variable {B last : ℕ} {logs : List PersistentLog} {a : Alloc} {c : Collect}
  {stores' : List NvlogStore} {i x : ℕ} {e : NvlogEntry OpEntryHdr}

/-! ### The operations that are accepted -/

theorem PersistentLog.mem_ops {p : PersistentLog} :
    (x, e) ∈ p.ops last ↔
      p.IsOplog ∧ (x, e) ∈ p.items ∧ e.type = .entry ∧ isOpEntryValid last e := by
  rw [ops]
  split
  · rename_i hs
    simp [accepts, hs, and_comm]
  · rename_i hs
    simp [hs]

theorem mem_allOps : ∀ {logs : List PersistentLog} {log i : ℕ},
    (i, x, e) ∈ allOps last log logs ↔
      log ≤ i ∧ OpAt logs (i - log) x e ∧ isOpEntryValid last e := by
  intro logs
  induction logs with
  | nil =>
    intro log i
    simp [allOps, OpAt]
  | cons p logs ih =>
    intro log i
    have hfirst : (i, x, e) ∈ (p.ops last).map (Prod.mk log) ↔
        i = log ∧ (x, e) ∈ p.ops last := by
      simp [eq_comm, and_comm]
    rw [allOps, List.mem_append, hfirst, PersistentLog.mem_ops, ih]
    constructor
    · rintro (⟨rfl, h1, h2, h3, h4⟩ | ⟨h1, ⟨q, h2, h3⟩, h4⟩)
      · exact ⟨le_refl _, ⟨p, by rw [Nat.sub_self]; rfl, h1, h2, h3⟩, h4⟩
      · refine ⟨by omega, ⟨q, ?_, h3⟩, h4⟩
        rw [show i - log = i - (log + 1) + 1 by omega]
        exact h2
    · rintro ⟨h1, ⟨q, h2, h3⟩, h4⟩
      by_cases hi : i = log
      · subst hi
        rw [Nat.sub_self] at h2
        obtain rfl := Option.some_inj.mp h2
        exact .inl ⟨rfl, h3.1, h3.2.1, h3.2.2, h4⟩
      · refine .inr ⟨by omega, ⟨q, ?_, h3⟩, h4⟩
        rw [show i - log = i - (log + 1) + 1 by omega] at h2
        exact h2

/-- The address of an operation: its log and its counter. -/
def address (y : ℕ × ℕ × NvlogEntry OpEntryHdr) : ℕ × ℕ := (y.1, y.2.1)

/-- The counters of the items of a log are different. -/
theorem PersistentLog.nodup_items (p : PersistentLog) : (p.items.map Prod.fst).Nodup := by
  refine List.pairwise_map.mpr (p.walk.pairwise.imp_of_mem fun hy _ hyz heq => ?_)
  have := (p.walk.mem hy).2.2.2
  omega

theorem PersistentLog.item_unique (p : PersistentLog) {e' : NvlogEntry OpEntryHdr}
    (h : (x, e) ∈ p.items) (h' : (x, e') ∈ p.items) : e = e' :=
  (Prod.mk.inj (List.inj_on_of_nodup_map p.nodup_items h h' rfl)).2

theorem OpAt.unique {e' : NvlogEntry OpEntryHdr} (h : OpAt logs i x e) (h' : OpAt logs i x e') :
    e = e' := by
  obtain ⟨p, hp, -, hm, -⟩ := h
  obtain ⟨p', hp', -, hm', -⟩ := h'
  obtain rfl := Option.some_inj.mp (hp.symm.trans hp')
  exact p.item_unique hm hm'

/-- Every operation is accepted once. -/
theorem nodup_allOps (logs : List PersistentLog) : ∀ log : ℕ,
    ((allOps last log logs).map address).Nodup := by
  induction logs with
  | nil => exact fun _ => List.nodup_nil
  | cons p logs ih =>
    intro log
    rw [allOps, List.map_append, List.nodup_append]
    refine ⟨?_, ih (log + 1), ?_⟩
    · rw [List.map_map, List.Nodup, List.pairwise_map]
      have hops : ((p.ops last).map Prod.fst).Nodup := by
        rw [PersistentLog.ops]
        split
        · exact p.nodup_items.sublist (List.filter_sublist.map _)
        · exact List.nodup_nil
      exact (List.pairwise_map.mp hops).imp fun hyz heq => hyz (Prod.mk.inj heq).2
    · -- the logs have different numbers
      intro q hq q' hq' heq
      subst heq
      obtain ⟨y, hy, rfl⟩ := List.mem_map.mp hq
      obtain ⟨⟨j, x', e'⟩, hz, heq⟩ := List.mem_map.mp hq'
      obtain ⟨y, -, rfl⟩ := List.mem_map.mp hy
      have hle := (mem_allOps.mp hz).1
      have : j = log := (Prod.mk.inj heq).1
      omega

/-! ### The records of one operation -/

/-- What is stored for a list of operations. -/
def stored (ops : List (ℕ × ℕ × NvlogEntry OpEntryHdr)) : Collect :=
  ops.foldl collectOp ⟨0, [], []⟩

variable {ops : List (ℕ × ℕ × NvlogEntry OpEntryHdr)} {y : ℕ × ℕ × NvlogEntry OpEntryHdr}
  {q : ℕ × ℕ}

theorem filled_stored (h : 2 * ops.length < 2 ^ 31) : Filled ops.length (stored ops) := by
  have hf := Filled.foldl ops (n := 0) (c := ⟨0, [], []⟩) ⟨rfl, rfl, rfl⟩ (by omega)
  rwa [Nat.zero_add] at hf

/-- The records and the context of one more operation. -/
theorem stored_append (h : 2 * ops.length < 2 ^ 31) :
    (stored (ops ++ [y])).replay = (stored ops).replay ++
        [(((2 * ops.length : ℕ) : ℤ), ⟨opLocalClk y.2.2, .exec, ops.length⟩),
          (((2 * ops.length : ℕ) : ℤ) + 1, ⟨y.2.2.wrtClk, .commit, ops.length⟩)] ∧
      (stored (ops ++ [y])).contexts = (stored ops).contexts ++
        [((ops.length : ℤ), ⟨none, address y⟩)] := by
  have hi := (filled_stored h).i
  have hreplay : (stored ops).i.toInt = (2 * ops.length : ℕ) := by
    rw [hi, Int32.toInt_ofNat_of_lt h]
  have hcontext : ((stored ops).i / 2).toInt = ops.length := by
    rw [hi, toInt_two_mul_div h]
  have hfold : stored (ops ++ [y]) = collectOp (stored ops) y := by
    rw [stored, List.foldl_append]
    rfl
  rw [hfold, collectOp, addOpReplay, hreplay, hcontext]
  exact ⟨rfl, rfl⟩

/-- A record belongs to one of the operations before. -/
theorem context_lt (ops : List (ℕ × ℕ × NvlogEntry OpEntryHdr)) (h : 2 * ops.length < 2 ^ 31) :
    ∀ r ∈ (stored ops).replay, r.2.context < ops.length := by
  induction ops using List.reverseRecOn with
  | nil =>
    intro r hr
    cases hr
  | append_singleton ops y ih =>
    rw [List.length_append, List.length_singleton] at h ⊢
    intro r hr
    rw [(stored_append (by omega)).1] at hr
    rcases List.mem_append.mp hr with hr | hr
    · have := ih (by omega) r hr
      omega
    · simp only [List.mem_cons, List.not_mem_nil, or_false] at hr
      rcases hr with rfl | rfl
      · simp only
        omega
      · simp only
        omega

theorem context_index_lt (h : 2 * ops.length < 2 ^ 31) :
    ∀ z ∈ (stored ops).contexts, z.1 < ops.length := by
  intro z hz
  have hm := List.mem_map_of_mem (f := Prod.fst) hz
  rw [(filled_stored h).contexts] at hm
  obtain ⟨k, hk, hkz⟩ := List.mem_map.mp hm
  rw [← hkz]
  exact Int.ofNat_lt.mpr (List.mem_range.mp hk)

/-- The records of an operation are those before, and its own. -/
theorem recordsOf_append (h : 2 * ops.length < 2 ^ 31) (y : ℕ × ℕ × NvlogEntry OpEntryHdr)
    (q : ℕ × ℕ) : (stored (ops ++ [y])).recordsOf q = (stored ops).recordsOf q ++
      if address y = q then
        [⟨opLocalClk y.2.2, .exec, ops.length⟩, ⟨y.2.2.wrtClk, .commit, ops.length⟩]
      else [] := by
  obtain ⟨hreplay, hcontexts⟩ := stored_append (y := y) h
  rw [Collect.recordsOf, hreplay, List.map_append, List.filter_append, hcontexts]
  congr 1
  · refine List.filter_congr fun r hr => ?_
    obtain ⟨z, hz, rfl⟩ := List.mem_map.mp hr
    have hlt := context_lt ops h z hz
    rw [decide_eq_decide, List.map_append, List.mem_append, List.map_singleton,
      List.mem_singleton]
    refine or_iff_left fun heq => ?_
    have := (Prod.mk.inj heq).1
    omega
  · -- the new context is that of the operation
    have hnew : ((ops.length : ℤ), q) ∈ ((stored ops).contexts ++
        [((ops.length : ℤ), (⟨none, address y⟩ : OpContext))]).map (fun z => (z.1, z.2.opEntry)) ↔
        address y = q := by
      rw [List.map_append, List.mem_append, List.map_singleton, List.mem_singleton]
      constructor
      · rintro (hz | hz)
        · obtain ⟨z, hz, heq⟩ := List.mem_map.mp hz
          have := context_index_lt h z hz
          have := (Prod.mk.inj heq).1
          omega
        · exact (Prod.mk.inj hz).2.symm
      · rintro rfl
        exact .inr rfl
    simp only [List.map_cons, List.map_nil, List.filter_cons, List.filter_nil, hnew]
    by_cases hq : address y = q
    · simp [hq]
    · simp [hq]

/-- An operation that is not collected has no record. -/
theorem recordsOf_of_notMem (ops : List (ℕ × ℕ × NvlogEntry OpEntryHdr))
    (h : 2 * ops.length < 2 ^ 31) (hq : q ∉ ops.map address) : (stored ops).recordsOf q = [] := by
  induction ops using List.reverseRecOn with
  | nil => rfl
  | append_singleton ops y ih =>
    rw [List.length_append, List.length_singleton] at h
    rw [List.map_append, List.mem_append, not_or] at hq
    rw [recordsOf_append (by omega), ih (by omega) hq.1, if_neg, List.append_nil]
    rintro rfl
    exact hq.2 (by simp)

/-- An operation that is collected once has one record of each type. -/
theorem recordsOf_of_mem (ops : List (ℕ × ℕ × NvlogEntry OpEntryHdr))
    (h : 2 * ops.length < 2 ^ 31) (hnd : (ops.map address).Nodup) (hy : y ∈ ops) :
    ∃ k, (stored ops).recordsOf (address y) =
      [⟨opLocalClk y.2.2, .exec, k⟩, ⟨y.2.2.wrtClk, .commit, k⟩] := by
  induction ops using List.reverseRecOn with
  | nil => cases hy
  | append_singleton ops z ih =>
    rw [List.length_append, List.length_singleton] at h
    rw [List.map_append, List.nodup_append] at hnd
    obtain ⟨hnd, -, hdisj⟩ := hnd
    rw [recordsOf_append (by omega)]
    rcases List.mem_append.mp hy with hy | hy
    · have hne : address z ≠ address y := fun heq =>
        hdisj _ (List.mem_map_of_mem hy) _ (by simp) heq.symm
      obtain ⟨k, hk⟩ := ih (by omega) hnd hy
      exact ⟨k, by rw [hk, if_neg hne, List.append_nil]⟩
    · obtain rfl := List.mem_singleton.mp hy
      refine ⟨ops.length, ?_⟩
      rw [recordsOf_of_notMem ops (by omega), if_pos rfl, List.nil_append]
      intro hmem
      exact hdisj _ hmem _ (by simp) rfl

/-! ### The whole array -/

theorem InRoom.of_filled {α : Type} {size bytes n : ℕ} {stores : List (ℤ × α)}
    (h : stores.map Prod.fst = (List.range n).map Int.ofNat) (hb : bytes = size * n) :
    InRoom size bytes stores := by
  constructor
  · intro z hz
    have hm := List.mem_map_of_mem (f := Prod.fst) hz
    rw [h] at hm
    obtain ⟨k, hk, hkz⟩ := List.mem_map.mp hm
    rw [List.mem_range] at hk
    rw [← hkz, hb]
    refine ⟨Int.natCast_nonneg k, ?_⟩
    have hle : size * (k + 1) ≤ size * n := Nat.mul_le_mul_left _ hk
    show (size : ℤ) * ((k : ℤ) + 1) ≤ ((size * n : ℕ) : ℤ)
    exact_mod_cast hle
  · rw [h]
    exact List.nodup_range.map fun _ _ heq => Int.ofNat_inj.mp heq

/-- Logs that the scans get through, with all operations that the checkpoint does not cover
beyond its clock, are replayed. -/
theorem replaysAll_of (hend : ∀ p ∈ logs, p.EndsInOp)
    (hroom : sizeofReplayEntry * 2 * opsTotal last logs < 2 ^ 31)
    (hlocal : ∀ i x e, OpAt logs i x e → gteClock B e.wrtClk last → last < opLocalClk e) :
    ReplaysAll B last logs := by
  obtain ⟨a, c, stores', hb⟩ := exists_built hend hroom
  have hfilled := hb.filled hroom
  have hlen : 2 * (allOps last 0 logs).length < 2 ^ 31 := by
    rw [length_allOps]
    rw [sizeofReplayEntry] at hroom
    omega
  refine ⟨a, c, _, stores', hb.alloc, hb.collect, .of_filled hfilled.replay ?_,
    .of_filled hfilled.contexts hb.contextBytes, fun i x e hop hge => ?_⟩
  · rw [hb.replayBytes, Nat.mul_assoc]
  · have hmem : (i, x, e) ∈ allOps last 0 logs :=
      mem_allOps.mpr ⟨Nat.zero_le i, hop, decide_eq_true (hlocal i x e hop hge)⟩
    rw [hb.stores]
    exact recordsOf_of_mem _ hlen (nodup_allOps logs 0) hmem

/-! ### What it takes -/

/-- The scans get through all logs, so that none ends in a filler. -/
theorem ReplaysAll.endsInOp (h : ReplaysAll B last logs) : ∀ p ∈ logs, p.EndsInOp := by
  obtain ⟨a, c, n, stores', ha, -⟩ := h
  simp only [allocReplayArray, Option.bind_eq_bind, Option.bind_eq_some_iff, Prod.exists] at ha
  obtain ⟨m, ss, halloc, -⟩ := ha
  intro p hp
  exact p.endsInOp_of_isSome ((opsCnt_allocLogs halloc).1 _ (List.mem_map_of_mem hp))

theorem allocLogs_append (ss ss' : List NvlogStore) : ∀ n : Int32,
    allocLogs last n (ss ++ ss') = (allocLogs last n ss).bind fun r =>
      (allocLogs last r.1 ss').map fun r' => (r'.1, r.2 ++ r'.2) := by
  induction ss with
  | nil =>
    intro n
    simp [allocLogs]
  | cons s ss ih =>
    intro n
    simp only [List.cons_append, allocLogs, Option.bind_eq_bind]
    cases allocLog last n s with
    | none => rfl
    | some r =>
      simp only [Option.bind_some, ih]
      cases allocLogs last r.1 ss with
      | none => rfl
      | some r' =>
        simp only [Option.bind_some]
        cases allocLogs last r'.1 ss' with
        | none => rfl
        | some r'' => rfl

theorem collectLogs_append (ss ss' : List NvlogStore) : ∀ (log : ℕ) (c : Collect),
    collectLogs last log c (ss ++ ss') = (collectLogs last log c ss).bind fun r =>
      (collectLogs last (log + ss.length) r.1 ss').map fun r' => (r'.1, r.2 ++ r'.2) := by
  induction ss with
  | nil =>
    intro log c
    simp [collectLogs]
  | cons s ss ih =>
    intro log c
    simp only [List.cons_append, collectLogs, Option.bind_eq_bind, List.length_cons]
    cases collectLog last log c s with
    | none => rfl
    | some r =>
      simp only [Option.bind_some, ih, Nat.add_assoc, Nat.add_comm 1]
      cases collectLogs last (log + 1) r.1 ss with
      | none => rfl
      | some r' =>
        simp only [Option.bind_some]
        cases collectLogs last (log + (ss.length + 1)) r'.1 ss' with
        | none => rfl
        | some r'' => rfl

theorem opsTotal_append (xs ys : List PersistentLog) :
    opsTotal last (xs ++ ys) = opsTotal last xs + opsTotal last ys := by
  rw [opsTotal, List.map_append, List.sum_append]
  rfl

/-- Logs of at most `m` operations each have first logs with `k` operations and at most `m`
more. -/
theorem exists_prefix (last : ℕ) {k m : ℕ} (logs : List PersistentLog)
    (hm : ∀ p ∈ logs, (p.ops last).length ≤ m) (hk : k ≤ opsTotal last logs) :
    ∃ pre suf, logs = pre ++ suf ∧ k ≤ opsTotal last pre ∧ opsTotal last pre ≤ k + m := by
  induction logs using List.reverseRecOn with
  | nil => exact ⟨[], [], rfl, hk, Nat.zero_le _⟩
  | append_singleton logs p ih =>
    by_cases h : k ≤ opsTotal last logs
    · obtain ⟨pre, suf, rfl, h1, h2⟩ := ih (fun q hq => hm q (List.mem_append_left _ hq)) h
      exact ⟨pre, suf ++ [p], List.append_assoc .., h1, h2⟩
    · refine ⟨logs ++ [p], [], (List.append_nil _).symm, hk, ?_⟩
      have hp := hm p (by simp)
      have hone : opsTotal last [p] = (p.ops last).length := Nat.add_zero _
      rw [opsTotal_append, hone]
      omega

/-- Every operation takes a byte of its log, or more. -/
theorem PersistentLog.length_ops_le (p : PersistentLog) :
    (p.ops last).length ≤ p.log.logSize := by
  have hitems := p.walk.length_le
  have hcap := p.cap
  have hops : (p.ops last).length ≤ p.items.length := by
    rw [ops]
    split
    · exact List.length_filter_le ..
    · exact Nat.zero_le _
  omega

theorem mem_foldl_collectOp {z : ℤ × ReplayEntry}
    (ops : List (ℕ × ℕ × NvlogEntry OpEntryHdr)) : ∀ c : Collect, z ∈ c.replay →
    z ∈ (ops.foldl collectOp c).replay := by
  induction ops with
  | nil => exact fun _ hz => hz
  | cons y ops ih =>
    intro c hz
    exact ih _ (List.mem_append_left _ hz)

/-- The second scan of the logs `logs` and then of others stores the records of `logs`. -/
theorem exists_stored (hend : ∀ p ∈ logs, p.EndsInOp) {ss : List NvlogStore}
    (h : collectLogs last 0 ⟨0, [], []⟩ (logs.map PersistentLog.toNvlogStore ++ ss) =
      some (c, stores')) : ∃ ops, c = stored (allOps last 0 logs ++ ops) := by
  obtain ⟨ss', hfirst, -⟩ := exists_collectLogs last logs 0 ⟨0, [], []⟩ hend
  rw [collectLogs_append, hfirst, Option.bind_some, Option.map_eq_some_iff] at h
  obtain ⟨⟨c', ss''⟩, hsecond, heq⟩ := h
  obtain ⟨ops, -, hc⟩ := collectLogs_eq hsecond
  refine ⟨ops, ?_⟩
  rw [stored, List.foldl_append, ← hc]
  exact (Prod.mk.inj heq).1.symm

/-- The record number 89478485 is beyond every array whose size an `int` says. -/
theorem ReplaysAll.room (h : ReplaysAll B last logs)
    (hsize : ∀ p ∈ logs, ∃ k < 32, p.log.logSize = 2 ^ k) :
    sizeofReplayEntry * 2 * opsTotal last logs < 2 ^ 31 := by
  have hend := h.endsInOp
  obtain ⟨a, c, n, stores', ha, hc, hroom, -⟩ := h
  simp only [allocReplayArray, Option.bind_eq_bind, Option.bind_eq_some_iff, Prod.exists,
    Option.some_inj] at ha
  obtain ⟨m, ss, halloc, bytes, hbytes, ctx, -, rfl⟩ := ha
  simp only [collectReplayEntries, Option.bind_eq_bind, Option.bind_eq_some_iff, Prod.exists,
    Option.some_inj, Prod.mk.injEq] at hc
  obtain ⟨c', ss', hcollect, rfl, -, -⟩ := hc
  have hlt := portAlloc_lt hbytes
  by_contra hmany
  rw [sizeofReplayEntry] at hmany
  -- the first logs that have too many operations have less than a counter holds
  obtain ⟨pre, suf, rfl, hpre, hpre'⟩ := exists_prefix last (k := 44739243) (m := 2 ^ 31)
    logs (fun p hp => by
      obtain ⟨k, hk, hn⟩ := hsize p hp
      have : (p.ops last).length ≤ p.log.logSize := p.length_ops_le
      have : 2 ^ k ≤ 2 ^ 31 := Nat.pow_le_pow_right (by decide) (by omega)
      omega) (by omega)
  obtain ⟨pre', hfirst, hend', hops⟩ := exists_allocLogs last pre 0
    (fun p hp => hend p (List.mem_append_left _ hp)) (by omega)
  rw [List.map_append, allocLogs_append, show (0 : Int32) = Int32.ofNat 0 from rfl, hfirst,
    Option.bind_some, Option.map_eq_some_iff] at halloc
  obtain ⟨⟨m', rest⟩, -, heq⟩ := halloc
  obtain ⟨-, rfl⟩ := Prod.mk.inj heq
  obtain ⟨ops, rfl⟩ := exists_stored hend' hcollect
  -- the last record of the first operations is stored beyond the array
  obtain ⟨front, hfront⟩ : ∃ front, front = (allOps last 0 pre').take 44739243 := ⟨_, rfl⟩
  have hlen : front.length = 44739243 := by
    rw [hfront, List.length_take, allOps_congr 0 hops, length_allOps]
    omega
  have hsplit : allOps last 0 pre' ++ ops =
      front ++ ((allOps last 0 pre').drop 44739243 ++ ops) := by
    rw [hfront, ← List.append_assoc, List.take_append_drop]
  have hidx : ((89478485 : ℕ) : ℤ) ∈ (stored front).replay.map Prod.fst := by
    rw [(filled_stored (by omega)).replay]
    exact List.mem_map_of_mem (f := Int.ofNat) (List.mem_range.mpr (by omega))
  obtain ⟨z, hz, hzi⟩ := List.mem_map.mp hidx
  rw [hsplit, stored, List.foldl_append] at hroom
  have hin := (hroom.inside z (mem_foldl_collectOp _ _ hz)).2
  rw [hzi, sizeofReplayEntry] at hin
  simp only at hin
  omega

/-- A record stands for an operation that the scans accept. -/
theorem ReplaysAll.local_lt (h : ReplaysAll B last logs)
    (hroom : sizeofReplayEntry * 2 * opsTotal last logs < 2 ^ 31) (hop : OpAt logs i x e)
    (hge : gteClock B e.wrtClk last) : last < opLocalClk e := by
  have hend := h.endsInOp
  obtain ⟨a, c, n, stores', ha, hc, -, -, hrec⟩ := h
  obtain ⟨a', c', stores'', hb⟩ := exists_built hend hroom
  obtain rfl := Option.some_inj.mp (ha.symm.trans hb.alloc)
  obtain rfl := (Prod.mk.inj (Option.some_inj.mp (hc.symm.trans hb.collect))).1
  obtain ⟨k, hk⟩ := hrec i x e hop hge
  by_contra hlt
  have hnone : c.recordsOf (i, x) = [] := by
    rw [hb.stores]
    refine recordsOf_of_notMem _ ?_ fun hmem => ?_
    · rw [length_allOps]
      rw [sizeofReplayEntry] at hroom
      omega
    · obtain ⟨⟨i', x', e'⟩, hy, heq⟩ := List.mem_map.mp hmem
      obtain ⟨rfl, rfl⟩ := Prod.mk.inj heq
      obtain ⟨-, hop', hvalid⟩ := mem_allOps.mp hy
      obtain rfl := hop.unique hop'
      exact hlt (of_decide_eq_true hvalid)
  rw [hnone] at hk
  cases hk

/-- Recovery builds the arrays, with exactly one EXEC and one COMMIT record of every operation
that the checkpoint does not cover, if and only if no operational log ends in a filler, the
records of the operations that the scans accept have less than `2 ^ 31` bytes, and every
operation that the checkpoint does not cover began after its clock.  The sizes of a log are
those that `is_power_of_2` accepts. -/
theorem replayed_iff (B last : ℕ) (logs : List PersistentLog)
    (hsize : ∀ p ∈ logs, ∃ k < 32, p.log.logSize = 2 ^ k) :
    ReplaysAll B last logs ↔
      (∀ p ∈ logs, p.EndsInOp) ∧ sizeofReplayEntry * 2 * opsTotal last logs < 2 ^ 31 ∧
        ∀ i x e, OpAt logs i x e → gteClock B e.wrtClk last → last < opLocalClk e := by
  constructor
  · intro h
    exact ⟨h.endsInOp, h.room hsize, fun i x e hop hge => h.local_lt (h.room hsize) hop hge⟩
  · rintro ⟨hend, hroom, hlocal⟩
    exact replaysAll_of hend hroom hlocal

/-- A log of 256 bytes whose only operation is behind a filler, at the start of the ring. -/
def wrappedLog (localClk wrtClk : ℕ) : PersistentLog where
  type := .oplog
  status := .normal
  log :=
    { headCnt := 192
      tailCnt := 320
      prevHeadCnt := 192
      logSize := 256
      buffer := fun i =>
        if i = 192 then some ⟨0, 64, .bogus, none⟩
        else if i = 0 then some ⟨wrtClk, 64, .entry, some ⟨localClk⟩⟩
        else none
      storeHeadCnt := 192
      storeTailCnt := 320 }
  items := [(192, ⟨0, 64, .bogus, none⟩), (256, ⟨wrtClk, 64, .entry, some ⟨localClk⟩⟩)]
  walk := by
    refine ⟨rfl, rfl, Nat.succ_pos 63, ?_, rfl, ?_, Nat.succ_pos 63, ?_, rfl⟩
    · show 192 % 256 + 64 ≤ 256
      decide
    · show (if 256 % 256 = 192 then _ else if 256 % 256 = 0 then _ else none) = _
      rw [if_neg (by decide), if_pos (by decide)]
    · show 256 % 256 + 64 ≤ 256
      decide
  bogusOk := by
    intro p hp
    simp only [List.mem_cons, List.not_mem_nil, or_false] at hp
    rcases hp with rfl | rfl
    · intro _
      show 192 % 256 ≠ 0 ∧ (192 + 64) % 256 = 0
      decide
    · exact nofun
  cap := by
    show 320 ≤ 192 + 256
    decide
  filled := by
    intro p hp
    simp only [List.mem_cons, List.not_mem_nil, or_false] at hp
    rcases hp with rfl | rfl
    · exact nofun
    · exact fun _ => rfl

theorem opAt_wrappedLog {l w : ℕ} (h : OpAt [wrappedLog l w] i x e) :
    i = 0 ∧ x = 256 ∧ e = ⟨w, 64, .entry, some ⟨l⟩⟩ := by
  obtain ⟨p, hp, -, hm, ht⟩ := h
  obtain ⟨rfl, rfl⟩ : i = 0 ∧ wrappedLog l w = p := by
    rcases i with _ | i
    · exact ⟨rfl, Option.some_inj.mp hp⟩
    · contradiction
  simp only [wrappedLog, List.mem_cons, List.not_mem_nil, or_false, Prod.mk.injEq] at hm
  rcases hm with ⟨rfl, rfl⟩ | ⟨rfl, rfl⟩
  · contradiction
  · exact ⟨rfl, rfl, rfl⟩

theorem endsInOp_wrappedLog (l w : ℕ) : (wrappedLog l w).EndsInOp := by
  intro _ p hp
  obtain rfl := Option.some_inj.mp hp
  rfl

/-- An operation that began after the clock of the checkpoint. -/
theorem replayed_iff_wrapped : ReplaysAll 0 10 [wrappedLog 15 20] := by
  refine (replayed_iff 0 10 [wrappedLog 15 20] ?_).mpr ⟨?_, by decide, ?_⟩
  · intro p hp
    obtain rfl := List.mem_singleton.mp hp
    exact ⟨8, by decide, rfl⟩
  · intro p hp
    obtain rfl := List.mem_singleton.mp hp
    exact endsInOp_wrappedLog 15 20
  · intro i x e hop _
    obtain ⟨-, -, rfl⟩ := opAt_wrappedLog hop
    decide

/-- A transaction that began at 5 and committed at 20 is not in the checkpoint of the clock
10, and it is not replayed. -/
theorem straddling_op_not_replayed :
    ¬ ∀ (B last : ℕ) (logs : List PersistentLog),
      (∀ p ∈ logs, ∃ k < 32, p.log.logSize = 2 ^ k) → ReplaysAll B last logs := by
  intro h
  have hall := h 0 10 [wrappedLog 5 20] fun p hp => by
    obtain rfl := List.mem_singleton.mp hp
    exact ⟨8, by decide, rfl⟩
  have hop : OpAt [wrappedLog 5 20] 0 256 ⟨20, 64, .entry, some ⟨5⟩⟩ :=
    ⟨_, rfl, ⟨rfl, rfl⟩, List.mem_cons_of_mem _ List.mem_cons_self, rfl⟩
  exact absurd (hall.local_lt (by decide) hop (by decide)) (by decide)

/-! ### The order of the records -/

/-- A record as `sort_replay_array` gets it: a 64-bit time stamp, and the index of its
context. -/
def ReplayEntry.toRecovery (r : ReplayEntry) : Recovery.ReplayEntry :=
  ⟨UInt64.ofNat r.timeStamp, r.type, r.context.toNat⟩

/-- The records of an operation have its clocks. -/
theorem mem_replay_stored (ops : List (ℕ × ℕ × NvlogEntry OpEntryHdr))
    (h : 2 * ops.length < 2 ^ 31) : ∀ r ∈ (stored ops).replay, ∃ (k : ℕ) (hk : k < ops.length),
      r.2 = ⟨opLocalClk ops[k].2.2, .exec, k⟩ ∨ r.2 = ⟨ops[k].2.2.wrtClk, .commit, k⟩ := by
  induction ops using List.reverseRecOn with
  | nil =>
    intro r hr
    cases hr
  | append_singleton ops y ih =>
    rw [List.length_append, List.length_singleton] at h
    intro r hr
    rw [(stored_append (by omega)).1] at hr
    rcases List.mem_append.mp hr with hr | hr
    · obtain ⟨k, hk, hrk⟩ := ih (by omega) r hr
      refine ⟨k, by rw [List.length_append]; omega, ?_⟩
      rw [List.getElem_append_left hk]
      exact hrk
    · refine ⟨ops.length, by simp, ?_⟩
      rw [List.getElem_concat_length rfl]
      simp only [List.mem_cons, List.not_mem_nil, or_false] at hr
      rcases hr with rfl | rfl
      · exact .inl rfl
      · exact .inr rfl

/-- The array that recovery builds from operations whose clocks are in order. -/
theorem opsOrdered_records (hb : Built last logs a c stores')
    (hroom : sizeofReplayEntry * 2 * opsTotal last logs < 2 ^ 31)
    (hclk : ∀ i x e, OpAt logs i x e → opLocalClk e < e.wrtClk ∧ e.wrtClk < 2 ^ 64) :
    Recovery.OpsOrdered (c.replay.map fun r => r.2.toRecovery) := by
  have hlen : 2 * (allOps last 0 logs).length < 2 ^ 31 := by
    rw [length_allOps]
    rw [sizeofReplayEntry] at hroom
    omega
  have hstored : c = stored (allOps last 0 logs) := hb.stores
  have hmem := mem_replay_stored _ hlen
  rw [← hstored] at hmem
  intro r hr r' hr' hctx hexec hcommit
  obtain ⟨z, hz, rfl⟩ := List.mem_map.mp hr
  obtain ⟨z', hz', rfl⟩ := List.mem_map.mp hr'
  obtain ⟨k, hk, hzk⟩ := hmem z hz
  obtain ⟨k', hk', hzk'⟩ := hmem z' hz'
  rcases hzk with hzk | hzk
  · rcases hzk' with hzk' | hzk'
    · rw [ReplayEntry.toRecovery, hzk'] at hcommit
      contradiction
    · -- the two records have one context, so they are of one operation
      rw [ReplayEntry.toRecovery, ReplayEntry.toRecovery, hzk, hzk'] at hctx ⊢
      simp only [Int.toNat_natCast] at hctx
      subst hctx
      obtain ⟨h1, h2⟩ := hclk _ _ _ (mem_allOps.mp (List.getElem_mem hk)).2.1
      simp only [List.get_eq_getElem] at h1 h2
      simp only [UInt64.lt_iff_toNat_lt]
      rw [UInt64.toNat_ofNat_of_lt' (h1.trans h2), UInt64.toNat_ofNat_of_lt' h2]
      exact h1
  · rw [ReplayEntry.toRecovery, hzk] at hexec
    contradiction

end TimeStone.ReplayScan
