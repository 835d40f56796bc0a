import BeeRpc.Wire.Varint
import Mathlib.Data.List.Infix
import Mathlib.Tactic.Ring

namespace Wire

-- `n.to_bytes(width, byteorder='big')`, without the check that the number fits.
def toBytesBig : Nat → Nat → Bytes
  | 0, _ => []
  | width + 1, n => toBytesBig width (n / 256) ++ [UInt8.ofNat (n % 256)]

-- `int.from_bytes(bytes, byteorder='big')`.
def fromBytesBig (bytes : Bytes) : Nat := bytes.foldl (fun n byte => 256 * n + byte.toNat) 0

theorem toBytesBig_length (width n : Nat) : (toBytesBig width n).length = width := by
  induction width generalizing n with
  | zero => rfl
  | succ width ih => simp [toBytesBig, ih]

theorem fromBytesBig_toBytesBig (width n : Nat) (hfits : n < 256 ^ width) :
    fromBytesBig (toBytesBig width n) = n := by
  induction width generalizing n with
  | zero =>
      have hzero : n = 0 := by simpa using hfits
      subst hzero
      rfl
  | succ width ih =>
      have hhigh : n / 256 < 256 ^ width := by
        rw [Nat.div_lt_iff_lt_mul (by omega)]
        rwa [Nat.pow_succ] at hfits
      have hlow : (UInt8.ofNat (n % 256)).toNat = n % 256 := by
        rw [UInt8.toNat_ofNat']
        omega
      unfold fromBytesBig at ih ⊢
      rw [toBytesBig, List.foldl_append, ih (n / 256) hhigh, List.foldl_cons, List.foldl_nil, hlow]
      omega

-- A prefix of a record and what follows it either ends inside the record or holds all of it.
theorem prefix_append_cases {α : Type} {front record rest : List α}
    (hfront : front <+: record ++ rest) :
    (front <+: record ∧ front.length < record.length) ∨
      ∃ more, front = record ++ more ∧ more <+: rest := by
  by_cases hlength : front.length < record.length
  · exact Or.inl ⟨List.prefix_of_prefix_length_le hfront (List.prefix_append _ _) (by omega), hlength⟩
  · obtain ⟨more, rfl⟩ : record <+: front :=
      List.prefix_of_prefix_length_le (List.prefix_append _ _) hfront (by omega)
    exact Or.inr ⟨more, rfl, (List.prefix_append_right_inj record).mp hfront⟩

end Wire
