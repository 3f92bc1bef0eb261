import Nisshi.Lib.Bytes

/-! Variable-length integers: a number in groups of seven bits, lowest first, with the high bit set on
every byte but the last, and the zigzag order of signed numbers, which keeps small ones short. -/

namespace Nisshi.Lib.Bytes

open List

def putVarint (value : Nat) : List UInt8 :=
  if value < 128 then [UInt8.ofNat value]
  else UInt8.ofNat (value % 128 + 128) :: putVarint (value / 128)
termination_by value
decreasing_by omega

def varintSize (value : Nat) : Nat :=
  if value < 128 then 1 else varintSize (value / 128) + 1
termination_by value
decreasing_by omega

/-- Reads a number of `width` bits, after `shift` bits of it with the value `low`. The groups are added
up, so a group that does not fit is an error unless only its lost bits make it too large. -/
def getVarint (width shift low : Nat) : Reader Nat
  | [] => none
  | byte :: rest =>
    let value := low + byte.toNat % 128 * 2 ^ shift % 2 ^ width
    if shift < width ∧ value < 2 ^ width then
      if byte.toNat < 128 then some (value, rest) else getVarint width (shift + 7) value rest
    else none

theorem length_putVarint (value : Nat) : (putVarint value).length = varintSize value := by
  induction value using putVarint.induct with
  | case1 _ small => rw [putVarint, varintSize, if_pos small, if_pos small, length_singleton]
  | case2 _ large ih => rw [putVarint, varintSize, if_neg large, if_neg large, length_cons, ih]

theorem varintSize_pos (value : Nat) : 0 < varintSize value := by
  rw [varintSize]
  split <;> omega

theorem varintSize_mono (le : small ≤ large) : varintSize small ≤ varintSize large := by
  induction large using varintSize.induct generalizing small with
  | case1 large fits =>
    rw [varintSize, if_pos (by omega), varintSize, if_pos fits]
  | case2 large long ih =>
    have step : varintSize large = varintSize (large / 128) + 1 := by
      rw [varintSize, if_neg long]
    rw [varintSize]
    split
    · omega
    · have := ih (Nat.div_le_div_right le)
      omega

theorem reads_getVarint (started : shift < width) (fits : low + value * 2 ^ shift < 2 ^ width) :
    Reads (getVarint width shift low) (putVarint value) (low + value * 2 ^ shift) := by
  induction value using putVarint.induct generalizing shift low with
  | case1 value small =>
    intro rest
    have digit : (UInt8.ofNat value).toNat = value := by
      rw [UInt8.toNat_ofNat']
      omega
    have kept : value * 2 ^ shift % 2 ^ width = value * 2 ^ shift := Nat.mod_eq_of_lt (by omega)
    rw [putVarint, if_pos small]
    simp only [singleton_append, getVarint, digit, Nat.mod_eq_of_lt small, kept]
    rw [if_pos ⟨started, fits⟩, if_pos small]
  | case2 value large ih =>
    intro rest
    have digit : (UInt8.ofNat (value % 128 + 128)).toNat = value % 128 + 128 := by
      rw [UInt8.toNat_ofNat']
      omega
    -- The value is its low group and the rest of it, seven bits further up.
    have split : value * 2 ^ shift = value % 128 * 2 ^ shift + value / 128 * 2 ^ (shift + 7) := by
      conv_lhs => rw [← Nat.mod_add_div value 128]
      ring
    have total : low + value * 2 ^ shift =
        low + value % 128 * 2 ^ shift + value / 128 * 2 ^ (shift + 7) := by omega
    have kept : value % 128 * 2 ^ shift % 2 ^ width = value % 128 * 2 ^ shift :=
      Nat.mod_eq_of_lt (by omega)
    have positive : 1 ≤ value / 128 := by omega
    have further : shift + 7 < width := by
      have le : 1 * 2 ^ (shift + 7) ≤ value / 128 * 2 ^ (shift + 7) := Nat.mul_le_mul_right _ positive
      exact (Nat.pow_lt_pow_iff_right (a := 2) (by decide)).mp (by omega)
    have continued : ¬value % 128 + 128 < 128 := by omega
    rw [putVarint, if_neg large]
    simp only [cons_append, getVarint, digit, Nat.add_mod_right, Nat.mod_mod, kept]
    rw [if_pos ⟨started, by omega⟩, total]
    exact ih further (by omega) rest

variable {w : Nat}

def enZigzag (decoded : BitVec w) : BitVec w :=
  (decoded <<< 1) ^^^ decoded.sshiftRight (w - 1)

def deZigzag (encoded : BitVec w) : BitVec w :=
  (encoded >>> 1) ^^^ -(encoded &&& 1#w)

theorem getLsbD_sshiftRight_sign (value : BitVec w) (bound : i < w) :
    (value.sshiftRight (w - 1)).getLsbD i = value.msb := by
  rw [BitVec.getLsbD_sshiftRight, BitVec.msb_eq_getLsbD_last]
  simp only [show ¬w ≤ i by omega, decide_false, Bool.not_false, Bool.true_and]
  split
  · congr 1
    omega
  · rfl

theorem getLsbD_neg_and_one (value : BitVec w) (bound : i < w) : (-(value &&& 1#w)).getLsbD i = value.getLsbD 0 := by
  have one : (value &&& 1#w) = if value.getLsbD 0 then 1#w else 0#w := by
    apply BitVec.eq_of_getLsbD_eq
    intro j _
    cases low : value.getLsbD 0 <;> by_cases zero : j = 0 <;> simp_all
  rw [one]
  cases value.getLsbD 0 with
  | false => simp
  | true => simp [BitVec.neg_one_eq_allOnes, bound]

theorem deZigzag_enZigzag (decoded : BitVec w) : deZigzag (enZigzag decoded) = decoded := by
  apply BitVec.eq_of_getLsbD_eq
  intro i bound
  have low : (enZigzag decoded).getLsbD 0 = decoded.msb := by
    rw [enZigzag, BitVec.getLsbD_xor, getLsbD_sshiftRight_sign _ (by omega)]
    simp
  have above : (enZigzag decoded >>> 1).getLsbD i = (decide (i + 1 < w) && (decoded.getLsbD i ^^ decoded.msb)) := by
    rw [BitVec.getLsbD_ushiftRight, enZigzag, BitVec.getLsbD_xor]
    by_cases inside : i + 1 < w
    · rw [Nat.add_comm 1 i, getLsbD_sshiftRight_sign _ inside]
      simp [inside, BitVec.getLsbD_eq_getElem bound]
    · have outside : w ≤ 1 + i := by omega
      simp [inside, BitVec.getLsbD_of_ge _ _ outside]
  rw [deZigzag, BitVec.getLsbD_xor, getLsbD_neg_and_one _ bound, low, above]
  by_cases inside : i + 1 < w
  · simp [inside]
  · have last : i = w - 1 := by omega
    simp [BitVec.msb_eq_getLsbD_last, last]

theorem toNat_enZigzag {value : BitVec w} (small : 2 * value.toNat < 2 ^ w) :
    (enZigzag value).toNat = 2 * value.toNat := by
  have nonneg : value.msb = false := by
    rw [BitVec.msb_eq_false_iff_two_mul_lt]
    exact small
  have sign : value.sshiftRight (w - 1) = 0#w := by
    apply BitVec.eq_of_getLsbD_eq
    intro i bound
    rw [getLsbD_sshiftRight_sign _ bound, nonneg, BitVec.getLsbD_zero]
  rw [enZigzag, sign, BitVec.xor_zero, BitVec.toNat_shiftLeft, Nat.shiftLeft_eq, Nat.mul_comm, Nat.mod_eq_of_lt small]

def putZigzag (value : BitVec w) : List UInt8 :=
  putVarint (enZigzag value).toNat

def zigzagSize (value : BitVec w) : Nat :=
  varintSize (enZigzag value).toNat

def getZigzag (w : Nat) : Reader (BitVec w) :=
  (fun encoded => deZigzag (BitVec.ofNat w encoded)) <$> getVarint w 0 0

theorem length_putZigzag (value : BitVec w) : (putZigzag value).length = zigzagSize value :=
  length_putVarint _

theorem zigzagSize_pos (value : BitVec w) : 0 < zigzagSize value :=
  varintSize_pos _

theorem reads_getZigzag (positive : 0 < w) (value : BitVec w) : Reads (getZigzag w) (putZigzag value) value := by
  have fits : 0 + (enZigzag value).toNat * 2 ^ 0 < 2 ^ w := by
    simpa using (enZigzag value).isLt
  have reads := (reads_getVarint positive fits).map fun encoded => deZigzag (BitVec.ofNat w encoded)
  rwa [pow_zero, Nat.mul_one, Nat.zero_add, BitVec.ofNat_toNat, BitVec.setWidth_eq, deZigzag_enZigzag] at reads

end Nisshi.Lib.Bytes
