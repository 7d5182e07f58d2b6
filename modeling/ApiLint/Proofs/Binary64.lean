import ApiLint.Binary64
import Mathlib.Algebra.Order.Ring.Int

/-!
# Whole numbers as doubles

Rounding keeps the order of whole numbers, so a greater one never becomes a lesser double.  Two
different whole numbers can become the same double only beyond `2 ^ 53`, and then they are no
further apart than doubles of that size are.
-/

namespace ApiLint.Binary64

/-! ## The nearest whole number -/

variable {num num' den q : Nat}

theorem roundHalfEven_near (hden : 0 < den) :
    2 * (den * roundHalfEven num den) ≤ 2 * num + den ∧
      2 * num ≤ 2 * (den * roundHalfEven num den) + den := by
  have hsplit := Nat.div_add_mod num den
  have hrest := Nat.mod_lt num hden
  unfold roundHalfEven
  dsimp only
  split
  · rw [Nat.mul_succ]
    omega
  · omega

theorem div_le_roundHalfEven (num den : Nat) :
    num / den ≤ roundHalfEven num den ∧ roundHalfEven num den ≤ num / den + 1 := by
  unfold roundHalfEven
  dsimp only
  split <;> omega

theorem roundHalfEven_mono (h : num ≤ num') :
    roundHalfEven num den ≤ roundHalfEven num' den := by
  obtain hlt | heq := (Nat.div_le_div_right h : num / den ≤ num' / den).lt_or_eq
  · have hfirst := div_le_roundHalfEven num den
    have hsecond := div_le_roundHalfEven num' den
    omega
  · -- the quotients are the same, so the greater number has the greater remainder
    have hsplit := Nat.div_add_mod num den
    have hsplit' := Nat.div_add_mod num' den
    rw [← heq] at hsplit'
    unfold roundHalfEven
    dsimp only
    rw [← heq]
    split <;> split <;> omega

theorem roundHalfEven_mul (hden : 0 < den) : roundHalfEven (q * den) den = q := by
  rw [roundHalfEven, Nat.mul_div_cancel q hden, Nat.mul_mod_left]
  exact if_neg (by omega)

theorem le_roundHalfEven (hden : 0 < den) (h : q * den ≤ num) : q ≤ roundHalfEven num den :=
  (roundHalfEven_mul hden).symm.trans_le (roundHalfEven_mono h)

theorem roundHalfEven_le (hden : 0 < den) (h : num ≤ q * den) : roundHalfEven num den ≤ q :=
  (roundHalfEven_mono h).trans_eq (roundHalfEven_mul hden)

theorem roundHalfEven_one : roundHalfEven num 1 = num := by
  simpa using roundHalfEven_mul (q := num) Nat.one_pos

/-! ## The nearest double -/

variable {m n : Nat}

/-- The whole number that the nearest double multiplies its power of two by. -/
def nearestSignificand (n : Nat) : Nat :=
  roundHalfEven (n * 2 ^ (52 - n.log2)) (2 ^ (n.log2 - 52))

theorem nearestSignificand_of_le (h : n.log2 ≤ 52) :
    nearestSignificand n = n * 2 ^ (52 - n.log2) := by
  rw [nearestSignificand, Nat.sub_eq_zero_of_le h, Nat.pow_zero, roundHalfEven_one]

theorem nearestSignificand_of_ge (h : 52 ≤ n.log2) :
    nearestSignificand n = roundHalfEven n (2 ^ (n.log2 - 52)) := by
  rw [nearestSignificand, Nat.sub_eq_zero_of_le h, Nat.pow_zero, Nat.mul_one]

/-- The scale of a whole number, in both directions. -/
theorem scale_eq (e : Nat) : 2 ^ 52 * 2 ^ (e - 52) = 2 ^ e * 2 ^ (52 - e) := by
  rw [← Nat.pow_add, ← Nat.pow_add]
  congr 1
  omega

theorem le_nearestSignificand (hn : n ≠ 0) : 2 ^ 52 ≤ nearestSignificand n := by
  refine le_roundHalfEven (Nat.two_pow_pos _) ?_
  rw [scale_eq]
  exact Nat.mul_le_mul_right _ (Nat.log2_self_le hn)

theorem nearestSignificand_le (n : Nat) : nearestSignificand n ≤ 2 ^ 53 := by
  refine roundHalfEven_le (Nat.two_pow_pos _) ?_
  calc n * 2 ^ (52 - n.log2) ≤ 2 ^ (n.log2 + 1) * 2 ^ (52 - n.log2) :=
        Nat.mul_le_mul_right _ Nat.lt_log2_self.le
    _ = 2 * (2 ^ n.log2 * 2 ^ (52 - n.log2)) := by rw [Nat.pow_succ']; exact Nat.mul_assoc ..
    _ = 2 ^ 53 * 2 ^ (n.log2 - 52) := by rw [← scale_eq]; omega

theorem floorLog2_one (hn : n ≠ 0) : floorLog2 n 1 = n.log2 := by
  have hone : Nat.log2 1 = 0 := by decide
  rw [floorLog2, hone]
  simp [shifted, Nat.pow_eq, Nat.log2_self_le hn]

theorem shifted_one (n e : Nat) :
    shifted n 1 ((e : Int) - 52) = (n * 2 ^ (52 - e), 2 ^ (e - 52)) := by
  obtain hsmall | hgreat := Nat.lt_or_ge e 52
  · have hshift : (-((e : Int) - 52)).toNat = 52 - e := by omega
    rw [shifted, if_neg (by omega), hshift, Nat.sub_eq_zero_of_le hsmall.le, Nat.pow_eq,
      Nat.pow_zero]
  · have hshift : ((e : Int) - 52).toNat = e - 52 := by omega
    rw [shifted, if_pos (by omega), hshift, Nat.sub_eq_zero_of_le hgreat, Nat.pow_eq,
      Nat.pow_zero, Nat.mul_one, Nat.one_mul]

theorem nearestPlace_one (hn : n ≠ 0) :
    nearestPlace n 1 = (n.log2 + 1022) * 2 ^ 52 + nearestSignificand n := by
  have hexponent : max ((n.log2 : Int) - 52) (-1074) = n.log2 - 52 := by omega
  have hbase : ((n.log2 : Int) - 52 + 1074).toNat = n.log2 + 1022 := by omega
  rw [nearestPlace, if_neg hn, floorLog2_one hn, hexponent]
  dsimp only
  rw [shifted_one, hbase, Nat.pow_eq, nearestSignificand]

theorem nearestPlace_le_of_log2_lt (hn : n ≠ 0) (h : m.log2 < n.log2) :
    nearestPlace m 1 ≤ nearestPlace n 1 := by
  obtain rfl | hm := Nat.eq_zero_or_pos m
  · exact Nat.zero_le _
  · rw [nearestPlace_one hm.ne', nearestPlace_one hn]
    have := nearestSignificand_le m
    have := le_nearestSignificand hn
    omega

theorem log2_mono (h : m ≤ n) : m.log2 ≤ n.log2 := by
  obtain rfl | hm := Nat.eq_zero_or_pos m
  · exact Nat.zero_le _
  · exact (Nat.le_log2 (by omega)).2 ((Nat.log2_self_le hm.ne').trans h)

theorem nearestPlace_mono (h : m ≤ n) : nearestPlace m 1 ≤ nearestPlace n 1 := by
  obtain rfl | hm := Nat.eq_zero_or_pos m
  · exact Nat.zero_le _
  · have hn : n ≠ 0 := by omega
    obtain hlt | heq := (log2_mono h).lt_or_eq
    · exact nearestPlace_le_of_log2_lt hn hlt
    · rw [nearestPlace_one hm.ne', nearestPlace_one hn, nearestSignificand, nearestSignificand, heq]
      exact Nat.add_le_add_left (roundHalfEven_mono (Nat.mul_le_mul_right _ h)) _

theorem nearestPlace_pos (hn : n ≠ 0) : 0 < nearestPlace n 1 := by
  rw [nearestPlace_one hn]
  omega

theorem nearestPlace_lt (h : n < 2 ^ 64) : nearestPlace n 1 < 2047 * Nat.pow 2 52 := by
  obtain rfl | hn := Nat.eq_zero_or_pos n
  · decide
  · have hlog : n.log2 < 64 := (Nat.log2_lt hn.ne').2 h
    have := nearestSignificand_le n
    rw [nearestPlace_one hn.ne', Nat.pow_eq]
    omega

/-! ## Whole numbers at one double -/

theorem nearestSignificand_near (h : 52 ≤ n.log2) :
    2 * (2 ^ (n.log2 - 52) * nearestSignificand n) ≤ 2 * n + 2 ^ (n.log2 - 52) ∧
      2 * n ≤ 2 * (2 ^ (n.log2 - 52) * nearestSignificand n) + 2 ^ (n.log2 - 52) := by
  rw [nearestSignificand_of_ge h]
  exact roundHalfEven_near (Nat.two_pow_pos _)

theorem gap_of_log2_eq (hm : m ≠ 0) (hlog : m.log2 = n.log2) (h : m < n)
    (hsame : nearestSignificand m = nearestSignificand n) :
    2 ^ 53 < n ∧ n - m ≤ 2 ^ (n.log2 - 52) := by
  obtain hgreat | hsmall := Nat.lt_or_ge 52 m.log2
  · have above := (nearestSignificand_near hgreat.le).1
    have below := (nearestSignificand_near (hgreat.le.trans_eq hlog)).2
    rw [hsame, hlog] at above
    exact ⟨((Nat.le_log2 hm).1 hgreat).trans_lt h, by omega⟩
  · -- nothing is rounded, so they would be equal
    rw [nearestSignificand_of_le hsmall, nearestSignificand_of_le (hlog.symm.trans_le hsmall),
      hlog] at hsame
    exact absurd (Nat.eq_of_mul_eq_mul_right (Nat.two_pow_pos _) hsame) h.ne

/-- The last whole numbers below a power of two may be rounded up to it. -/
theorem gap_of_log2_succ (hlog : n.log2 = m.log2 + 1) (hfirst : nearestSignificand m = 2 ^ 53)
    (hsecond : nearestSignificand n = 2 ^ 52) : 2 ^ 53 < n ∧ n - m ≤ 2 ^ (n.log2 - 52) := by
  have hn : n ≠ 0 := by
    rintro rfl
    exact absurd hlog (Nat.zero_ne_add_one _)
  obtain hgreat | hsmall := Nat.lt_or_ge 52 m.log2
  · have above := (nearestSignificand_near hgreat.le).1
    have below := (nearestSignificand_near (n := n) (by omega)).2
    have hscale : 2 ^ (n.log2 - 52) = 2 * 2 ^ (m.log2 - 52) := by
      rw [← Nat.pow_succ']
      congr 1
      omega
    have hlarge : 2 ^ 54 ≤ n := (Nat.le_log2 hn).1 (by omega)
    rw [hfirst] at above
    rw [hsecond, hscale] at below
    omega
  · -- nothing is rounded, so the significand is below the power of two
    have hlt : m * 2 ^ (52 - m.log2) < 2 ^ (m.log2 + 1) * 2 ^ (52 - m.log2) :=
      Nat.mul_lt_mul_of_pos_right Nat.lt_log2_self (Nat.two_pow_pos _)
    rw [← nearestSignificand_of_le hsmall, hfirst, ← Nat.pow_add,
      Nat.pow_lt_pow_iff_right (by decide)] at hlt
    omega

/-- Different whole numbers at one double are great and close to each other. -/
theorem gap_of_nearestPlace_eq (h : m < n) (hsame : nearestPlace m 1 = nearestPlace n 1) :
    2 ^ 53 < n ∧ n - m ≤ 2 ^ (n.log2 - 52) := by
  have hn : n ≠ 0 := by omega
  have hm : m ≠ 0 := by
    rintro rfl
    exact (nearestPlace_pos hn).ne hsame
  have := nearestSignificand_le m
  have := le_nearestSignificand hm
  have := nearestSignificand_le n
  have := le_nearestSignificand hn
  rw [nearestPlace_one hm, nearestPlace_one hn] at hsame
  obtain hlt | heq := (log2_mono h.le).lt_or_eq
  · exact gap_of_log2_succ (by omega) (by omega) (by omega)
  · exact gap_of_log2_eq hm heq h (by omega)

/-! ## Signs -/

variable {a b : Int}

/-- The rank of the double nearest to a whole number. -/
def nearestRank (n : Int) : Int := n.sign * nearestPlace n.natAbs 1

theorem ofInt_eq_some (h : a.natAbs < 2 ^ 64) :
    ∃ x, ofInt a = some x ∧ x.rank = nearestRank a := by
  refine ⟨⟨a < 0, nearestPlace a.natAbs 1, nearestPlace_lt h⟩, dif_pos _, ?_⟩
  rw [rank, nearestRank]
  obtain hneg | rfl | hpos := Int.lt_trichotomy a 0
  · simp [hneg, Int.sign_eq_neg_one_of_neg hneg]
  · rfl
  · simp [hpos.not_gt, Int.sign_eq_one_of_pos hpos]

theorem nearestRank_natCast (n : Nat) : nearestRank n = nearestPlace n 1 := by
  obtain rfl | hn := Nat.eq_zero_or_pos n
  · rfl
  · rw [nearestRank, Int.natAbs_natCast, Int.sign_eq_one_of_pos (by omega), Int.one_mul]

theorem nearestRank_neg (a : Int) : nearestRank (-a) = -nearestRank a := by
  rw [nearestRank, nearestRank, Int.natAbs_neg, Int.sign_neg, Int.neg_mul]

theorem nearestRank_mono (h : a ≤ b) : nearestRank a ≤ nearestRank b := by
  obtain ⟨m, rfl | rfl⟩ := a.eq_nat_or_neg <;> obtain ⟨n, rfl | rfl⟩ := b.eq_nat_or_neg
  · rw [nearestRank_natCast, nearestRank_natCast]
    have := nearestPlace_mono (m := m) (n := n) (by omega)
    omega
  · obtain ⟨rfl, rfl⟩ : m = 0 ∧ n = 0 := by omega
    rfl
  · rw [nearestRank_neg, nearestRank_natCast, nearestRank_natCast]
    omega
  · rw [nearestRank_neg, nearestRank_neg, nearestRank_natCast, nearestRank_natCast]
    have := nearestPlace_mono (m := n) (n := m) (by omega)
    omega

/-- Whole numbers that are not both within `2 ^ 53` of zero and are no further apart than doubles
of their size are. -/
def Crowded (a b : Int) : Prop :=
  2 ^ 53 < max a.natAbs b.natAbs ∧
    (a - b).natAbs ≤ 2 ^ ((max a.natAbs b.natAbs).log2 - 52)

theorem crowded_of_nearestRank_eq (h : a < b) (hsame : nearestRank a = nearestRank b) :
    Crowded a b := by
  obtain ⟨m, rfl | rfl⟩ := a.eq_nat_or_neg <;> obtain ⟨n, rfl | rfl⟩ := b.eq_nat_or_neg
  · rw [nearestRank_natCast, nearestRank_natCast] at hsame
    have hgap := gap_of_nearestPlace_eq (m := m) (n := n) (by omega) (by omega)
    rw [Crowded, Int.natAbs_natCast, Int.natAbs_natCast, max_eq_right (by omega)]
    exact ⟨hgap.1, by omega⟩
  · omega
  · rw [nearestRank_neg, nearestRank_natCast, nearestRank_natCast] at hsame
    obtain hm | hn : m ≠ 0 ∨ n ≠ 0 := by omega
    · have := nearestPlace_pos hm
      omega
    · have := nearestPlace_pos hn
      omega
  · rw [nearestRank_neg, nearestRank_neg, nearestRank_natCast, nearestRank_natCast] at hsame
    have hgap := gap_of_nearestPlace_eq (m := n) (n := m) (by omega) (by omega)
    rw [Crowded, Int.natAbs_neg, Int.natAbs_neg, Int.natAbs_natCast, Int.natAbs_natCast,
      max_eq_left (by omega)]
    exact ⟨hgap.1, by omega⟩

/-- A double that is less comes from a lesser whole number, and different whole numbers with the
same double are crowded. -/
theorem order_of_ofInt {x y : Binary64} (ha : a.natAbs < 2 ^ 64) (hb : b.natAbs < 2 ^ 64)
    (hx : ofInt a = some x) (hy : ofInt b = some y) :
    (x.rank < y.rank ↔ a < b ∧ x.same y = false) ∧ (a < b → x.same y → Crowded a b) := by
  obtain ⟨x', hx', hrankx⟩ := ofInt_eq_some ha
  obtain ⟨y', hy', hranky⟩ := ofInt_eq_some hb
  obtain rfl : x' = x := Option.some.inj (hx'.symm.trans hx)
  obtain rfl : y' = y := Option.some.inj (hy'.symm.trans hy)
  rw [same, hrankx, hranky, beq_iff_eq, beq_eq_false_iff_ne]
  refine ⟨⟨fun h => ?_, fun ⟨h, hne⟩ => ?_⟩, crowded_of_nearestRank_eq⟩
  · refine ⟨Int.not_le.1 fun hle => ?_, h.ne⟩
    have := nearestRank_mono hle
    omega
  · have := nearestRank_mono h.le
    omega

end ApiLint.Binary64
