import PFPSanitizer.Lib.Binary64

-- The natural numbers that conversion to a double does not change.
namespace Binary64

open Float.Model UnpackedFloat

-- The integers with at most 53 significant bits.
def Representable (n : Nat) : Prop :=
  ∃ m < 2 ^ 53, ∃ j, n = m * 2 ^ j

theorem repeat_shiftRightOne (m n : Nat) :
    n.repeat ExtendedMantissa.shiftRightOne ⟨m * 2 ^ n, false, false⟩ = ⟨m, false, false⟩ := by
  induction n generalizing m with
  | zero      => simp [Nat.repeat]
  | succ n ih =>
    have hm : m * 2 ^ (n + 1) = 2 * m * 2 ^ n := by ring
    rw [Nat.repeat, hm, ih]
    simp [ExtendedMantissa.shiftRightOne]

-- A shift that only loses zeros.
theorem shiftToExponent_exact {m : Nat} {e t : Int} (k : Nat) (hk : (t - e).toNat = k) :
    shiftToExponent (m * 2 ^ k) e .exact t = (⟨m, false, false⟩, e + k) := by
  show (Nat.repeat ExtendedMantissa.shiftRightOne (t - e).toNat ⟨m * 2 ^ k, false, false⟩,
    e + (t - e).toNat) = _
  rw [hk, repeat_shiftRightOne]

theorem log2_eq {m : Nat} (hlo : 2 ^ 52 ≤ m) (hhi : m < 2 ^ 53) : m.log2 = 52 := by
  rw [Nat.log2_eq_iff (by omega)]
  exact ⟨hlo, hhi⟩

theorem targetExponent_of_normal {m : Nat} {e : Int} (hlo : 2 ^ 52 ≤ m) (hhi : m < 2 ^ 53)
    (he : -1074 ≤ e) :
    Format.binary64.targetExponent (totalExponent m e) = e := by
  have hm : Format.binary64.minExponent = -1074 := rfl
  have hb : Format.binary64.mantissaBits = 53 := rfl
  rw [totalExponent, log2_eq hlo hhi, Format.targetExponent, hm, hb]
  omega

theorem targetExponent_of_shift {m : Nat} {e : Int} (k : Nat) (hlo : 2 ^ 52 ≤ m) (hhi : m < 2 ^ 53)
    (he : -1074 ≤ e + k) :
    Format.binary64.targetExponent (totalExponent (m * 2 ^ k) e) = e + k := by
  have hlog : (m * 2 ^ k).log2 = 52 + k := by
    rw [Nat.log2_eq_iff (by positivity)]
    constructor
    · rw [Nat.pow_add]
      exact Nat.mul_le_mul_right _ hlo
    · rw [show 52 + k + 1 = 53 + k by omega, Nat.pow_add]
      exact Nat.mul_lt_mul_of_pos_right hhi (by positivity)
  have hm : Format.binary64.minExponent = -1074 := rfl
  have hb : Format.binary64.mantissaBits = 53 := rfl
  rw [totalExponent, hlog, Format.targetExponent, hm, hb]
  omega

-- A mantissa of 53 bits is not rounded, with any number of zeros behind it.
theorem roundWithAccuracy_exact {s : Sign} {m : Nat} {e : Int} (k : Nat) (hlo : 2 ^ 52 ≤ m)
    (hhi : m < 2 ^ 53) (he : -1074 ≤ e + k) :
    roundWithAccuracy Format.binary64 s (m * 2 ^ k) e .exact = .finite s m (e + k) (by omega) := by
  have h₁ : shiftToTargetExponent Format.binary64 (m * 2 ^ k) e .exact =
      (⟨m, false, false⟩, e + k) := by
    rw [shiftToTargetExponent, targetExponent_of_shift k hlo hhi he]
    exact shiftToExponent_exact k (by omega)
  have h₂ : shiftToTargetExponent Format.binary64 m (e + k) .exact =
      (⟨m, false, false⟩, e + k) := by
    rw [shiftToTargetExponent, targetExponent_of_normal hlo hhi he]
    have := shiftToExponent_exact (m := m) (e := e + k) (t := e + k) 0 (by omega)
    simpa using this
  have hr : (ExtendedMantissa.mk m false false).roundedMantissa = m := rfl
  rw [roundWithAccuracy]
  simp only [h₁, hr, h₂]
  rw [dif_neg (by omega)]

theorem unpack_pack_of_normal {s : Sign} {m : Nat} {e : Int} (hm : 0 < m) (hlo : 2 ^ 52 ≤ m)
    (hhi : m < 2 ^ 53) (he : -1074 ≤ e) (he' : e ≤ 971) :
    (Float.Model.pack (.finite s m e hm)).unpack = .finite s m e hm := by
  have hb : (e + Format.binary64.exponentBias + Format.binary64.mantissaBitsWithoutImplicit).toNat =
      (e + 1075).toNat := by
    show (e + (1023 : Nat) + (52 : Nat)).toNat = _
    omega
  have hexp : (BitVec.ofNat 11 (e + 1075).toNat).toNat = (e + 1075).toNat := by
    rw [BitVec.toNat_ofNat, Nat.mod_eq_of_lt (by omega)]
  have hp : UnpackedFloat.pack Format.binary64 (.finite s m e hm) =
      packComponents Format.binary64 s (BitVec.ofNat 11 (e + 1075).toNat) (BitVec.ofNat 52 m) := by
    simp only [UnpackedFloat.pack, hb, log2_eq hlo hhi]
    rw [if_neg (by omega), if_pos (show 52 + 1 = Format.binary64.mantissaBits from rfl)]
  show UnpackedFloat.unpack Format.binary64
    (UnpackedFloat.pack Format.binary64 (.finite s m e hm)) = _
  rw [hp, UnpackedFloat.unpack]
  simp only [unpackMantissa_packComponents, unpackExponent_packComponents,
    unpackSign_packComponents, Sign.ofBitVec_toBitVec]
  rw [if_neg, if_neg]
  · refine finite_congr rfl ?_ ?_
    · rw [BitVec.toNat_append]
      show 1 <<< 52 ||| (BitVec.ofNat 52 m).toNat = _
      rw [Nat.one_shiftLeft, Nat.or_comm, Nat.or_two_pow_eq_add_of_lt (BitVec.ofNat 52 m).isLt,
        BitVec.toNat_ofNat]
      omega
    · rw [hexp]
      show _ - ((1023 : Nat) + (52 : Nat) : Int) = e
      omega
  · rw [← BitVec.toNat_inj, hexp]
    show ¬_ = 0
    omega
  · rw [← BitVec.toNat_inj, hexp]
    show ¬_ = 2047
    omega

-- A representable number has 53 bits and zeros behind them, or it has 53 bits with zeros added.
theorem Representable.exists_normal {n : Nat} (h : Representable n) (h₀ : 0 < n) :
    ∃ m, 2 ^ 52 ≤ m ∧ m < 2 ^ 53 ∧ ∃ k, n = m * 2 ^ k ∨ m = n * 2 ^ k := by
  have hlo := Nat.log2_self_le (Nat.ne_of_gt h₀)
  have hhi := Nat.lt_log2_self (n := n)
  by_cases hl : n.log2 ≤ 52
  case pos =>
    refine ⟨n * 2 ^ (52 - n.log2), ?_, ?_, 52 - n.log2, .inr rfl⟩
    · calc 2 ^ 52 = 2 ^ n.log2 * 2 ^ (52 - n.log2) := by rw [← Nat.pow_add]; congr 1; omega
        _ ≤ n * 2 ^ (52 - n.log2)                  := Nat.mul_le_mul_right _ hlo
    · calc n * 2 ^ (52 - n.log2) < 2 ^ (n.log2 + 1) * 2 ^ (52 - n.log2) :=
        Nat.mul_lt_mul_of_pos_right hhi (Nat.two_pow_pos _)
        _ = 2 ^ 53 :=
          by rw [← Nat.pow_add]; congr 1; omega
  case neg =>
    obtain ⟨m, hm, j, rfl⟩ := h
    have hj : (m * 2 ^ j).log2 - 52 ≤ j := by
      have hlt : 2 ^ (m * 2 ^ j).log2 < 2 ^ (53 + j) :=
        calc 2 ^ (m * 2 ^ j).log2 ≤ m * 2 ^ j := hlo
          _ < 2 ^ 53 * 2 ^ j                  := Nat.mul_lt_mul_of_pos_right hm (by positivity)
          _ = 2 ^ (53 + j)                    := (Nat.pow_add 2 53 j).symm
      have := (Nat.pow_lt_pow_iff_right (by decide)).mp hlt
      omega
    generalize hL : (m * 2 ^ j).log2 = L at *
    have he : m * 2 ^ j = m * 2 ^ (j - (L - 52)) * 2 ^ (L - 52) := by
      rw [Nat.mul_assoc, ← Nat.pow_add]
      congr 2
      omega
    refine ⟨m * 2 ^ (j - (L - 52)), ?_, ?_, L - 52, .inl he⟩
    · refine Nat.le_of_mul_le_mul_right (c := 2 ^ (L - 52)) ?_ (by positivity)
      rw [← he, ← Nat.pow_add]
      exact (Nat.pow_le_pow_right (by decide) (by omega)).trans hlo
    · refine Nat.lt_of_mul_lt_mul_right (a := 2 ^ (L - 52)) ?_
      rw [← he, ← Nat.pow_add]
      exact hhi.trans_le (Nat.pow_le_pow_right (by decide) (by omega))

theorem normalize_of_pos {n : Nat} (h : 0 < n) (e : Int) (z : Sign) :
    UnpackedFloat.normalize Format.binary64
    (n : Int) e z = UnpackedFloat.round Format.binary64 .positive n e := by
  have hc : compare (n : Int) 0 = .gt := Int.compare_eq_gt.mpr (by omega)
  rw [UnpackedFloat.normalize, hc]
  rfl

-- A representable number is not rounded.
theorem ofNat_exact {n m k : Nat} (hlo : 2 ^ 52 ≤ m) (hhi : m < 2 ^ 53)
    (h : n = m * 2 ^ k ∨ m = n * 2 ^ k) (h₀ : 0 < n) :
    ∃ e : Int, UnpackedFloat.ofNat Format.binary64 n = .finite .positive m e (by omega) ∧
      ((e = k ∧ n = m * 2 ^ k) ∨ (e = -k ∧ k ≤ 52 ∧ m = n * 2 ^ k)) := by
  rw [UnpackedFloat.ofNat, UnpackedFloat.ofInt, normalize_of_pos h₀, UnpackedFloat.round]
  rcases h with rfl | rfl
  case inl =>
    refine ⟨k, ?_, .inl ⟨rfl, rfl⟩⟩
    have ht := targetExponent_of_shift (e := 0) k hlo hhi (by omega)
    have hs : ((0 : Int) - (0 + k)).toNat = 0 := by omega
    simp only [ht, decreaseExponent, hs]
    rw [Nat.shiftLeft_zero]
    exact (roundWithAccuracy_exact k hlo hhi (by omega)).trans (finite_congr rfl rfl (by omega))
  case inr =>
    have hk : k ≤ 52 := by
      by_contra hn
      have : 2 ^ 53 ≤ n * 2 ^ k :=
        (Nat.pow_le_pow_right (by decide) (by omega)).trans (Nat.le_mul_of_pos_left _ h₀)
      omega
    refine ⟨-k, ?_, .inr ⟨rfl, hk, rfl⟩⟩
    have hlog : n.log2 = 52 - k := by
      rw [Nat.log2_eq_iff (by omega)]
      constructor
      · refine Nat.le_of_mul_le_mul_right (c := 2 ^ k) ?_ (by positivity)
        rw [← Nat.pow_add]
        exact (Nat.pow_le_pow_right (by decide) (by omega)).trans hlo
      · refine Nat.lt_of_mul_lt_mul_right (a := 2 ^ k) ?_
        rw [← Nat.pow_add]
        exact hhi.trans_le (Nat.pow_le_pow_right (by decide) (by omega))
    have ht : Format.binary64.targetExponent (totalExponent n 0) = -k := by
      have hm : Format.binary64.minExponent = -1074 := rfl
      have hb : Format.binary64.mantissaBits = 53 := rfl
      rw [totalExponent, hlog, Format.targetExponent, hm, hb]
      omega
    have hs : ((0 : Int) - -k).toNat = k := by omega
    simp only [ht, decreaseExponent, hs, Nat.shiftLeft_eq]
    have := roundWithAccuracy_exact (s := .positive) (e := 0 - (k : Int)) 0 hlo hhi (by omega)
    rw [Nat.pow_zero, Nat.mul_one] at this
    exact this.trans (finite_congr rfl rfl (by omega))

-- The integer that a double is truncated to.
def truncate : UnpackedFloat → Option Int
  | .zero _         => some 0
  | .finite s m e _ => some (s.apply (if 0 ≤ e then m * 2 ^ e.toNat else m / 2 ^ (-e).toNat : Nat))
  | _               => none

theorem truncate_ofNat {n w : Nat} (h : Representable n) (hn : n < 2 ^ w) (hw : w ≤ 1024) :
    truncate (Float.Model.ofNat n).unpack = some (n : Int) := by
  obtain rfl | h₀ := Nat.eq_zero_or_pos n
  · rfl
  obtain ⟨m, hlo, hhi, k, hk⟩ := h.exists_normal h₀
  obtain ⟨e, hf, he⟩ := ofNat_exact hlo hhi hk h₀
  have hbound : -1074 ≤ e ∧ e ≤ 971 := by
    obtain ⟨rfl, rfl⟩ | ⟨rfl, hk, -⟩ := he
    case inr => omega
    case inl =>
      have hlt : 2 ^ (52 + k) < 2 ^ w := by
        rw [Nat.pow_add]
        exact (Nat.mul_le_mul_right _ hlo).trans_lt hn
      have := (Nat.pow_lt_pow_iff_right (by decide)).mp hlt
      omega
  rw [Float.Model.ofNat, hf, unpack_pack_of_normal _ hlo hhi hbound.left hbound.right, truncate]
  obtain ⟨rfl, hn⟩ | ⟨rfl, -, hm⟩ := he
  case inl => rw [if_pos (by omega), Int.toNat_natCast, ← hn, Sign.apply]
  case inr =>
    rw [Int.neg_neg, Int.toNat_natCast, hm, Nat.mul_div_cancel _ (by positivity), Sign.apply]
    split
    case isFalse => rfl
    case isTrue hk =>
      obtain rfl : k = 0 := by omega
      simp

-- Whatever a double is truncated to is representable.
theorem representable_of_truncate {x : Float} {z : Int} (h : truncate x.toModel.unpack = some z) :
    Representable z.natAbs := by
  have hs : ∀ (s : Sign) (n : Nat), (s.apply n).natAbs = n := by
    intro s n
    cases s <;> simp [Sign.apply]
  rw [unpack_eq, ofMag] at h
  split at h
  · split at h <;> cases h
  split at h
  · cases h
    exact ⟨0, by decide, 0, rfl⟩
  · cases h
    rw [hs]
    split
    · exact ⟨_, mant_lt _, _, rfl⟩
    · exact ⟨_, (Nat.div_le_self _ _).trans_lt (mant_lt _), 0, by rw [Nat.pow_zero, Nat.mul_one]⟩

end Binary64
