import LineBasic.Random.Keystream

namespace LineBasic

theorem ChaCha.word_add_period (key : Key) (i : Nat) : word key (i + period) = word key i := by
  have hblock : (i + period) / 16 = i / 16 + UInt64.size := by
    rw [period, Nat.add_mul_div_left _ _ (by decide)]
  have hplace : (i + period) % 16 = i % 16 := by
    rw [period, Nat.add_mul_mod_self_left]
  have hcounter : UInt64.ofNat (i / 16 + UInt64.size) = UInt64.ofNat (i / 16) := by
    rw [UInt64.ofNat_eq_iff_mod_eq_toNat, UInt64.toNat_ofNat', Nat.add_mod_right]
  rw [word, word, hblock, hplace, hcounter]

namespace Keystream
variable {k : Keystream} {bound zone i : Nat}

/-- The word after `i` others falls in the part of the range that `bound` divides evenly. -/
def Accepts (k : Keystream) (bound zone i : Nat) : Prop :=
  (ChaCha.word k.key (k.drawn + i)).toNat * bound % UInt32.size ≤ zone

def taken (k : Keystream) (bound i : Nat) : Nat × Keystream :=
  ((ChaCha.word k.key (k.drawn + i)).toNat * bound / UInt32.size, { k with drawn :=
    k.drawn + i + 1 })

theorem taken_lt (h : 0 < bound) : (k.taken bound i).1 < bound := by
  apply Nat.div_lt_of_lt_mul
  exact Nat.mul_lt_mul_of_pos_right (UInt32.toNat_lt _) h

theorem accepts_add_period : k.Accepts bound zone (i + ChaCha.period) ↔ k.Accepts bound zone i := by
  rw [Accepts, Accepts, ← Nat.add_assoc, ChaCha.word_add_period]

theorem drawBelow_eq {tries : Nat} (hi : i < tries) (haccepts : k.Accepts bound zone i)
    (hbefore : ∀ j < i, ¬ k.Accepts bound zone j) :
    drawBelow bound zone tries k = k.taken bound i := by
  induction i generalizing k tries with
  | zero =>
    obtain ⟨tries, rfl⟩ := Nat.exists_eq_succ_of_ne_zero (Nat.ne_of_gt hi)
    exact if_pos haccepts
  | succ i ih =>
    obtain ⟨tries, rfl⟩ := Nat.exists_eq_succ_of_ne_zero (Nat.ne_of_gt (Nat.zero_lt_of_lt hi))
    have hshift (j : Nat) : k.draw.2.Accepts bound zone j ↔ k.Accepts bound zone (j + 1) := by
      rw [Accepts, Accepts, draw, Nat.add_right_comm]
      rfl
    have hrest := ih (k := k.draw.2) (Nat.lt_of_succ_lt_succ hi) ((hshift i).2 haccepts)
      fun j hj h =>
      hbefore (j + 1) (Nat.succ_lt_succ hj) ((hshift j).1 h)
    refine (if_neg (hbefore 0 (Nat.succ_pos i))).trans (hrest.trans ?_)
    simp only [taken, draw, Nat.add_right_comm _ 1]
    rfl

/-- A number is made of the first word that is accepted. The tries are never used up before it, as a
word that is accepted at all is so within a period. -/
theorem below_eq (haccepts : k.Accepts bound (UInt32.size - 1 - (UInt32.size - bound) % bound) i)
    (hbefore : ∀ j < i, ¬ k.Accepts bound (UInt32.size - 1 - (UInt32.size - bound) % bound) j) :
    k.below bound = k.taken bound i := by
  refine drawBelow_eq (Nat.lt_of_not_le fun hlate => ?_) haccepts hbefore
  obtain ⟨j, rfl⟩ := Nat.exists_eq_add_of_le' hlate
  exact hbefore j (Nat.lt_add_of_pos_right (by decide)) (accepts_add_period.1 haccepts)

end Keystream
end LineBasic
