/-
The ordo clock (`ordo_clock.h`, `clock.h`).

Hardware time stamps of different cores are comparable only when they are more
than `B = ordo_boundary()` apart.  `ltClock B` and `gtClock B` are the strict
comparisons that take the boundary into account, `gteClock` and `lteClock` their
negations.  None of the four is transitive together with its negation; the
lemmas here are the ones that hold, and every later argument about clocks goes
through `ltClock_iff`.

`atBorderline` is the test of `is_at_borderline` (`tvlog.c`) on the clocks of a copy.
-/
import TimeStone.Config

namespace TimeStone

/-- `ordo_lt_clock`. -/
def ltClock (B t₁ t₂ : ℕ) : Prop := t₁ < t₂ ∧ t₂ - t₁ > B

/-- `ordo_gt_clock`. -/
def gtClock (B t₁ t₂ : ℕ) : Prop := t₁ > t₂ ∧ t₁ - t₂ > B

/-- `gte_clock`. -/
def gteClock (B t₁ t₂ : ℕ) : Prop := ¬ ltClock B t₁ t₂

/-- `lte_clock`. -/
def lteClock (B t₁ t₂ : ℕ) : Prop := ¬ gtClock B t₁ t₂

/-- `correct_qp_clock`. -/
def correctQpClock (B qp : ℕ) : ℕ := qp - B

instance (B t₁ t₂ : ℕ) : Decidable (ltClock B t₁ t₂) := inferInstanceAs (Decidable (_ ∧ _))

instance (B t₁ t₂ : ℕ) : Decidable (gtClock B t₁ t₂) := inferInstanceAs (Decidable (_ ∧ _))

instance (B t₁ t₂ : ℕ) : Decidable (gteClock B t₁ t₂) := inferInstanceAs (Decidable (¬ _))

instance (B t₁ t₂ : ℕ) : Decidable (lteClock B t₁ t₂) := inferInstanceAs (Decidable (¬ _))

/-- `is_at_borderline`, for a copy with the write clock `wrtClk`: `wrtClkPrev` is the
clock of the next newer version, or `MAX_VERSION`. -/
def atBorderline (B wrtClk wrtClkPrev ckptSClk lastCkptClk : ℕ) : Prop :=
  if wrtClkPrev = maxVersion then ltClock B wrtClk ckptSClk
  else gteClock B wrtClkPrev ckptSClk ∧ ltClock B wrtClk ckptSClk ∧ gteClock B wrtClk lastCkptClk

instance (B wrtClk wrtClkPrev ckptSClk lastCkptClk : ℕ) :
    Decidable (atBorderline B wrtClk wrtClkPrev ckptSClk lastCkptClk) :=
  inferInstanceAs (Decidable (if wrtClkPrev = maxVersion then _ else _ ∧ _ ∧ _))

variable {B a b c : ℕ}

theorem ltClock_iff : ltClock B a b ↔ a + B < b := by
  rw [ltClock]
  omega

theorem gtClock_iff : gtClock B a b ↔ b + B < a := by
  rw [gtClock]
  omega

theorem gteClock_iff : gteClock B a b ↔ b ≤ a + B := by
  rw [gteClock, ltClock_iff]
  omega

end TimeStone
