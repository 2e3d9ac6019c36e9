/-
The history of the versions: what every version was duplicated from.

`Follows` is the write rule of one copy: its source is in the snapshot of its transaction, and
every other version of the object is newer than the copy or not newer than its source.  It
holds from the memcpy on.  Until the copy is inserted the lock keeps all others from inserting;
until it is stamped its clock is `MAX_VERSION`, and the stamp is after the snapshot.

* `History.quiet`, `History.insert`, `History.stamp` — the steps of a thread;
* `History.successor` — a version that is not the newest has a successor next to it.
-/
import TimeStone.VersionChainSteps
import TimeStone.WriteRule

namespace TimeStone.WriteRule

open VersionChain (Inv Quiet Inserts Stamps Entering Thread Pc)

variable {B : ℕ} {c c' c₁ : VersionChain.State} {d : ℕ → Option Origin} {x : Origin}
  {t u o k j n w W : ℕ}

/-- The write rule for the copy `k`. -/
structure Follows (B : ℕ) (c : VersionChain.State) (k : ℕ) (x : Origin) : Prop where
  before : x.localClk < (c.copies k).wrtClk
  src : ∀ n, x.src = some n → (c.copies n).inserted = true ∧
    (c.copies n).obj = (c.copies k).obj ∧ (c.copies n).wrtClk + B < x.localClk
  rest : ∀ j, (c.copies j).inserted = true → (c.copies j).obj = (c.copies k).obj → j ≠ k →
    (c.copies k).wrtClk < (c.copies j).wrtClk ∨
      ∃ n, x.src = some n ∧ (c.copies j).wrtClk ≤ (c.copies n).wrtClk

/-- The copy is a version, or it is locked by a write set. -/
def Live (c : VersionChain.State) (k : ℕ) : Prop :=
  (c.copies k).inserted = true ∨ ∃ u, k ∈ (c.threads u).held

structure History (B : ℕ) (c : VersionChain.State) (d : ℕ → Option Origin) : Prop where
  rule : ∀ k x, d k = some x → Live c k → Follows B c k x
  head : ∀ o n j, c.pCopy o = some n → (c.copies j).inserted = true → (c.copies j).obj = o →
    j ≠ n → (c.copies j).wrtClk < (c.copies n).wrtClk
  link : ∀ n k, (c.copies n).inserted = true → (c.copies n).pCopy = some k →
    ∃ x, d n = some x ∧ x.src = some k
  done : ∀ k, (c.copies k).inserted = true → ∃ x, d k = some x
  le : ∀ k, (c.copies k).inserted = true → (c.copies k).wrtClk ≤ maxVersion

theorem Live.lt (h : Live c k) (hi : Inv B c) : k < c.numCopies := by
  rcases h with h | ⟨u, h⟩
  · exact (hi.chains.alloc k h).1
  · exact ((hi.threads u).holds k h).alloc

/-- A copy without a stamp has the lock of its object. -/
theorem Live.lock (h : Live c k) (hi : Inv B c) (hk : (c.copies k).wrtClk = maxVersion) :
    c.pLock (c.copies k).obj = some k := by
  rcases h with h | ⟨u, h⟩
  · exact (hi.chains.unstamped k h fun hcom => hcom hk).2
  · exact ((hi.threads u).holds k h).lock

/-- A copy that a write set has locked has no stamp. -/
theorem held_wrtClk (hi : Inv B c) (hk : k ∈ (c.threads t).held) :
    (c.copies k).wrtClk = maxVersion :=
  Classical.not_not.mp ((hi.threads t).holds k hk).unstamped

/-- While a write set has the lock, every other version of the object has its stamp. -/
theorem History.lt_of_held (h : History B c d) (hi : Inv B c) (hk : k ∈ (c.threads t).held)
    (hj : Live c j) (hjo : (c.copies j).obj = (c.copies k).obj) (hne : j ≠ k) :
    (c.copies j).inserted = true ∧ (c.copies j).wrtClk < maxVersion := by
  have hlock := ((hi.threads t).holds k hk).lock
  have hw : (c.copies j).wrtClk ≠ maxVersion := by
    intro hm
    have hl := hj.lock hi hm
    rw [hjo, hlock, Option.some_inj] at hl
    exact hne hl.symm
  rcases hj with hj | ⟨u, hj⟩
  · exact ⟨hj, Nat.lt_of_le_of_ne (h.le j hj) hw⟩
  · exact absurd (held_wrtClk hi hj) hw

/-! ### Steps of a thread -/

theorem Follows.congr (h : Follows B c k x)
    (hins : ∀ j, (c'.copies j).inserted = (c.copies j).inserted)
    (hobj : ∀ j < c.numCopies, (c'.copies j).obj = (c.copies j).obj)
    (hclk : ∀ j < c.numCopies, (c'.copies j).wrtClk = (c.copies j).wrtClk)
    (halloc : ∀ j, (c.copies j).inserted = true → j < c.numCopies) (hk : k < c.numCopies) :
    Follows B c' k x := by
  constructor
  · rw [hclk k hk]
    exact h.before
  · intro n hn
    obtain ⟨h1, h2, h3⟩ := h.src n hn
    have hlt := halloc n h1
    rw [hins, hobj n hlt, hobj k hk, hclk n hlt]
    exact ⟨h1, h2, h3⟩
  · intro j hj hjo hne
    rw [hins] at hj
    have hlt := halloc j hj
    rw [hobj j hlt, hobj k hk] at hjo
    rw [hclk j hlt, hclk k hk]
    rcases h.rest j hj hjo hne with h1 | ⟨n, h1, h2⟩
    · exact Or.inl h1
    · refine Or.inr ⟨n, h1, ?_⟩
      rw [hclk n (halloc n (h.src n h1).1)]
      exact h2

theorem History.quiet (h : History B c d) (hi : Inv B c) (hq : Quiet c c' t)
    (hlive : ∀ k x, d k = some x → Live c' k → Live c k) : History B c' d := by
  have halloc : ∀ j, (c.copies j).inserted = true → j < c.numCopies :=
    fun j hj => (hi.chains.alloc j hj).1
  constructor
  · intro k x hx hk
    have hl := hlive k x hx hk
    exact (h.rule k x hx hl).congr hq.inserted hq.obj hq.wrtClk halloc (hl.lt hi)
  · intro o n j hn hj hjo hne
    rw [hq.head] at hn
    rw [hq.inserted] at hj
    have hj' := halloc j hj
    rw [hq.obj j hj'] at hjo
    rw [hq.wrtClk j hj', hq.wrtClk n (halloc n (hi.chains.head o n hn).1)]
    exact h.head o n j hn hj hjo hne
  · intro n k hn hk
    rw [hq.inserted] at hn
    rw [hq.link n hn] at hk
    exact h.link n k hn hk
  · intro k hk
    rw [hq.inserted] at hk
    exact h.done k hk
  · intro k hk
    rw [hq.inserted] at hk
    rw [hq.wrtClk k (halloc k hk)]
    exact h.le k hk

/-- The version that a locked copy is going to follow is the newest one. -/
theorem History.src_head (h : History B c d) (hi : Inv B c) (hk : k ∈ (c.threads t).held)
    (hx : d k = some x) (hnot : (c.copies k).inserted = false)
    (hp : c.pCopy (c.copies k).obj = some j) : x.src = some j := by
  obtain ⟨hj, hjo, -⟩ := hi.chains.head _ j hp
  have hf := h.rule k x hx (Or.inr ⟨t, hk⟩)
  have hne : j ≠ k := by
    rintro rfl
    rw [hnot] at hj
    cases hj
  rcases hf.rest j hj hjo hne with h1 | ⟨n, hn, h1⟩
  · have hle := h.le j hj
    rw [held_wrtClk hi hk] at h1
    omega
  · obtain ⟨h2, h3, -⟩ := hf.src n hn
    by_cases he : n = j
    · rw [hn, he]
    · have hlt := h.head _ j n hp h2 h3 he
      omega

theorem History.insert (h : History B c d) (hi : Inv B c) (he : Entering c t k)
    (hins : Inserts c c₁ k) (hx : d k = some x) (hcop : c'.copies = c₁.copies)
    (hhead : c'.pCopy = c₁.pCopy)
    (hheld : ∀ u, ∀ j ∈ (c'.threads u).held, j ∈ (c.threads u).held) : History B c' d := by
  have hkm := held_wrtClk hi he.held
  have hfk := h.rule k x hx (Or.inr ⟨t, he.held⟩)
  have hfields : ∀ j, (c'.copies j).obj = (c.copies j).obj ∧
      (c'.copies j).wrtClk = (c.copies j).wrtClk ∧ (c'.copies j).pCopy = (c.copies j).pCopy := by
    intro j
    rw [hcop]
    obtain ⟨h1, -, h3, h4⟩ := hins.fields j
    exact ⟨h1, h3, h4⟩
  have hcases : ∀ j, (c'.copies j).inserted = true →
      j = k ∨ j ≠ k ∧ (c.copies j).inserted = true := by
    intro j hj
    rw [hcop] at hj
    rcases hins.cases hj with h1 | ⟨h1, h2, -⟩
    · exact Or.inl h1
    · exact Or.inr ⟨h1, h2⟩
  have hold : ∀ j, (c.copies j).inserted = true → (c'.copies j).inserted = true := by
    intro j hj
    rw [hcop, hins.other j (he.ne hj)]
    exact hj
  have hlive : ∀ j, Live c' j → Live c j := by
    rintro j (hj | ⟨u, hj⟩)
    · rcases hcases j hj with rfl | ⟨-, hj⟩
      · exact Or.inr ⟨t, he.held⟩
      · exact Or.inl hj
    · exact Or.inr ⟨u, hheld u j hj⟩
  constructor
  · intro i y hy hl
    have hli := hlive i hl
    have hf := h.rule i y hy hli
    constructor
    · rw [(hfields i).2.1]
      exact hf.before
    · intro n hn
      rw [(hfields n).1, (hfields n).2.1, (hfields i).1]
      obtain ⟨h1, h2, h3⟩ := hf.src n hn
      exact ⟨hold n h1, h2, h3⟩
    · intro j hj hjo hne
      rw [(hfields j).1, (hfields i).1] at hjo
      rw [(hfields i).2.1, (hfields j).2.1]
      rcases hcases j hj with rfl | ⟨-, hj⟩
      · -- the new version is the newest one
        refine Or.inl ?_
        rw [hkm]
        exact (h.lt_of_held hi he.held hli hjo.symm hne.symm).2
      · rcases hf.rest j hj hjo hne with h1 | ⟨n, h1, h2⟩
        · exact Or.inl h1
        · refine Or.inr ⟨n, h1, ?_⟩
          rw [(hfields n).2.1]
          exact h2
  · intro o n j hn hj hjo hne
    rw [hhead] at hn
    rw [(hfields j).1] at hjo
    rw [(hfields j).2.1, (hfields n).2.1]
    by_cases ho : o = (c.copies k).obj
    · rw [ho, hins.head, Option.some_inj] at hn
      subst hn
      rcases hcases j hj with rfl | ⟨hjk, hj⟩
      · exact absurd rfl hne
      · rw [hkm]
        exact (h.lt_of_held hi he.held (Or.inl hj) (hjo.trans ho) hjk).2
    · rw [hins.pCopy o ho] at hn
      rcases hcases j hj with rfl | ⟨-, hj⟩
      · exact absurd hjo.symm ho
      · exact h.head o n j hn hj hjo hne
  · intro n i hn hl
    rw [(hfields n).2.2] at hl
    rcases hcases n hn with rfl | ⟨-, hn⟩
    · rw [he.pCopy] at hl
      exact ⟨x, hx, h.src_head hi he.held hx he.fresh hl⟩
    · exact h.link n i hn hl
  · intro j hj
    rcases hcases j hj with rfl | ⟨-, hj⟩
    · exact ⟨x, hx⟩
    · exact h.done j hj
  · intro j hj
    rw [(hfields j).2.1]
    rcases hcases j hj with rfl | ⟨-, hj⟩
    · exact Nat.le_of_eq hkm
    · exact h.le j hj

theorem History.stamp (h : History B c d) (hi : Inv B c) (hk : k ∈ (c.threads t).held)
    (hst : Stamps c c₁ k W) (hx : d k = some x) (hW : x.localClk < W) (hmax : W < maxVersion)
    (hcop : c'.copies = c₁.copies) (hhead : c'.pCopy = c₁.pCopy)
    (hheld : ∀ u, ∀ j ∈ (c'.threads u).held, j ∈ (c.threads u).held) : History B c' d := by
  have hkm := held_wrtClk hi hk
  have hfk := h.rule k x hx (Or.inr ⟨t, hk⟩)
  have hins : ∀ j, (c'.copies j).inserted = (c.copies j).inserted := by
    intro j
    rw [hcop]
    exact (hst.fields j).1
  have hobj : ∀ j, (c'.copies j).obj = (c.copies j).obj := by
    intro j
    rw [hcop]
    exact (hst.fields j).2.1
  have hself : (c'.copies k).wrtClk = W := by
    rw [hcop]
    exact hst.self.1
  have hother : ∀ j, j ≠ k → (c'.copies j).wrtClk = (c.copies j).wrtClk := by
    intro j hj
    rw [hcop]
    exact hst.wrtClk hj
  have hlive : ∀ j, Live c' j → Live c j := by
    rintro j (hj | ⟨u, hj⟩)
    · exact Or.inl ((hins j) ▸ hj)
    · exact Or.inr ⟨u, hheld u j hj⟩
  -- a version before the snapshot of some transaction is not the one that is stamped
  have hsrc : ∀ {i y n}, d i = some y → Live c i → y.src = some n →
      (c'.copies n).wrtClk = (c.copies n).wrtClk := by
    intro i y n hy hl hn
    refine hother n ?_
    rintro rfl
    have hb := (h.rule i y hy hl).before
    have hle : (c.copies i).wrtClk ≤ maxVersion := by
      rcases hl with hl | ⟨u, hl⟩
      · exact h.le i hl
      · exact Nat.le_of_eq (held_wrtClk hi hl)
    have := ((h.rule i y hy hl).src n hn).2.2
    omega
  -- the other versions are before the stamp
  have hbefore : ∀ j, (c.copies j).inserted = true → (c.copies j).obj = (c.copies k).obj →
      j ≠ k → (c.copies j).wrtClk < W ∧
        ∃ n, x.src = some n ∧ (c.copies j).wrtClk ≤ (c.copies n).wrtClk := by
    intro j hj hjo hne
    rcases hfk.rest j hj hjo hne with h1 | ⟨n, hn, h1⟩
    · have := h.le j hj
      omega
    · have := (hfk.src n hn).2.2
      exact ⟨by omega, n, hn, h1⟩
  constructor
  · intro i y hy hl
    have hli := hlive i hl
    have hf := h.rule i y hy hli
    constructor
    · by_cases hik : i = k
      · subst hik
        rw [hx, Option.some_inj] at hy
        rw [hself, ← hy]
        exact hW
      · rw [hother i hik]
        exact hf.before
    · intro n hn
      rw [hins, hobj, hobj, hsrc hy hli hn]
      exact hf.src n hn
    · intro j hj hjo hne
      rw [hins] at hj
      rw [hobj, hobj] at hjo
      by_cases hik : i = k
      · subst hik
        rw [hx, Option.some_inj] at hy
        subst hy
        obtain ⟨-, n, hn, h1⟩ := hbefore j hj hjo hne
        refine Or.inr ⟨n, hn, ?_⟩
        rw [hother j hne, hsrc hx hli hn]
        exact h1
      · rw [hother i hik]
        by_cases hjk : j = k
        · -- an older version stays before the one that is stamped
          subst hjk
          obtain ⟨hi', -⟩ := h.lt_of_held hi hk hli hjo.symm hik
          rw [hself]
          exact Or.inl (hbefore i hi' hjo.symm hik).1
        · rw [hother j hjk]
          rcases hf.rest j hj hjo hne with h1 | ⟨n, hn, h1⟩
          · exact Or.inl h1
          · refine Or.inr ⟨n, hn, ?_⟩
            rw [hsrc hy hli hn]
            exact h1
  · intro o n j hn hj hjo hne
    rw [hhead, hst.pCopy] at hn
    rw [hins] at hj
    rw [hobj] at hjo
    have hlt := h.head o n j hn hj hjo hne
    obtain ⟨hn1, hn2, -⟩ := hi.chains.head o n hn
    by_cases hnk : n = k
    · subst hnk
      rw [hself, hother j hne]
      exact (hbefore j hj (hjo.trans hn2.symm) hne).1
    · rw [hother n hnk]
      have hjk : j ≠ k := by
        rintro rfl
        have := h.le n hn1
        omega
      rw [hother j hjk]
      exact hlt
  · intro n i hn hl
    rw [hins] at hn
    rw [hcop, hst.pCopy_eq hn] at hl
    exact h.link n i hn hl
  · intro j hj
    rw [hins] at hj
    exact h.done j hj
  · intro j hj
    rw [hins] at hj
    by_cases hjk : j = k
    · subst hjk
      rw [hself]
      exact Nat.le_of_lt hmax
    · rw [hother j hjk]
      exact h.le j hj

/-- The newest version is detached. -/
theorem History.detach (h : History B c d) : History B (c.setPCopy o none) d := by
  refine ⟨fun k x hx hk => ?_, ?_, h.link, h.done, h.le⟩
  · obtain ⟨h1, h2, h3⟩ := h.rule k x hx hk
    exact ⟨h1, h2, h3⟩
  · intro o' n j hn hj hjo hne
    rw [VersionChain.setPCopy_pCopy] at hn
    split at hn
    · cases hn
    · exact h.head o' n j hn hj hjo hne

/-- The memcpy to a locked copy. -/
theorem History.duplicated (h : History B c d) (hk : (c.copies k).inserted = false)
    (hf : Follows B c k x) : History B c (Function.update d k (some x)) := by
  have hne : ∀ {j}, (c.copies j).inserted = true → Function.update d k (some x) j = d j := by
    intro j hj
    refine Function.update_of_ne ?_ ..
    rintro rfl
    rw [hk] at hj
    cases hj
  constructor
  · intro j y hy hl
    by_cases hjk : j = k
    · subst hjk
      rw [Function.update_self, Option.some_inj] at hy
      exact hy ▸ hf
    · rw [Function.update_of_ne hjk] at hy
      exact h.rule j y hy hl
  · exact h.head
  · intro n i hn hl
    rw [hne hn]
    exact h.link n i hn hl
  · intro j hj
    rw [hne hj]
    exact h.done j hj
  · exact h.le

end TimeStone.WriteRule
