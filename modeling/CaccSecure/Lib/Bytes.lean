import Mathlib.Data.Nat.Bitwise

/-!
# Big-endian words

Words put together from bytes by shifts and ors, and taken apart by shifts and
truncation, as network code does it.
-/

namespace Bytes

/-- The word with the given bytes, most significant first. -/
def be32 (b₀ b₁ b₂ b₃ : UInt8) : UInt32 :=
  (b₀.toUInt32 <<< 24) ||| (b₁.toUInt32 <<< 16) ||| (b₂.toUInt32 <<< 8) |||
    b₃.toUInt32

/-- The bytes of a word, most significant first. -/
def bytes32 (w : UInt32) : List UInt8 :=
  [(w >>> 24).toUInt8, (w >>> 16).toUInt8, (w >>> 8).toUInt8, w.toUInt8]

theorem toNat_be32 (b₀ b₁ b₂ b₃ : UInt8) :
    (be32 b₀ b₁ b₂ b₃).toNat =
      b₀.toNat * 2 ^ 24 + b₁.toNat * 2 ^ 16 + b₂.toNat * 2 ^ 8 + b₃.toNat := by
  have h₀ := b₀.toNat_lt
  have h₁ := b₁.toNat_lt
  have h₂ := b₂.toNat_lt
  have h₃ := b₃.toNat_lt
  have hshift₀ : (b₀.toUInt32 <<< 24).toNat = 2 ^ 24 * b₀.toNat := by
    simp [Nat.shiftLeft_eq]
    omega
  have hshift₁ : (b₁.toUInt32 <<< 16).toNat = 2 ^ 16 * b₁.toNat := by
    simp [Nat.shiftLeft_eq]
    omega
  have hshift₂ : (b₂.toUInt32 <<< 8).toNat = 2 ^ 8 * b₂.toNat := by
    simp [Nat.shiftLeft_eq]
    omega
  -- or is addition when the lower operand fits below the shift
  have hor₁ := Nat.two_pow_add_eq_or_of_lt (i := 24) (b := 2 ^ 16 * b₁.toNat)
    (by omega) b₀.toNat
  have hor₂ := Nat.two_pow_add_eq_or_of_lt (i := 16) (b := 2 ^ 8 * b₂.toNat)
    (by omega) (2 ^ 8 * b₀.toNat + b₁.toNat)
  have hor₃ := Nat.two_pow_add_eq_or_of_lt (i := 8) (b := b₃.toNat)
    (by omega) (2 ^ 16 * b₀.toNat + 2 ^ 8 * b₁.toNat + b₂.toNat)
  simp only [be32, UInt32.toNat_or, hshift₀, hshift₁, hshift₂, ← hor₁]
  rw [show 2 ^ 24 * b₀.toNat + 2 ^ 16 * b₁.toNat =
    2 ^ 16 * (2 ^ 8 * b₀.toNat + b₁.toNat) by omega, ← hor₂]
  rw [show 2 ^ 16 * (2 ^ 8 * b₀.toNat + b₁.toNat) + 2 ^ 8 * b₂.toNat =
    2 ^ 8 * (2 ^ 16 * b₀.toNat + 2 ^ 8 * b₁.toNat + b₂.toNat) by omega]
  rw [UInt8.toNat_toUInt32, ← hor₃]
  omega

/-- A word is put together from exactly its own bytes. -/
theorem be32_eq_iff {b₀ b₁ b₂ b₃ : UInt8} {w : UInt32} :
    be32 b₀ b₁ b₂ b₃ = w ↔ bytes32 w = [b₀, b₁, b₂, b₃] := by
  have h₀ := b₀.toNat_lt
  have h₁ := b₁.toNat_lt
  have h₂ := b₂.toNat_lt
  have h₃ := b₃.toNat_lt
  have hw := w.toNat_lt
  rw [← UInt32.toNat_inj, toNat_be32]
  simp only [bytes32, List.cons.injEq, and_true, ← UInt8.toNat_inj,
    UInt32.toNat_toUInt8, UInt32.toNat_shiftRight, Nat.shiftRight_eq_div_pow]
  have e24 : (24 : UInt32).toNat % 32 = 24 := rfl
  have e16 : (16 : UInt32).toNat % 32 = 16 := rfl
  have e8 : (8 : UInt32).toNat % 32 = 8 := rfl
  rw [e24, e16, e8]
  omega

/-! ## Three bytes -/

/-- The word with the given three bytes, most significant first. -/
def be24 (b₀ b₁ b₂ : UInt8) : UInt32 :=
  (b₀.toUInt32 <<< 16) ||| (b₁.toUInt32 <<< 8) ||| b₂.toUInt32

/-- The three lowest bytes of a word, most significant first. -/
def bytes24 (w : UInt32) : List UInt8 :=
  [((w >>> 16) &&& 0xFF).toUInt8, ((w >>> 8) &&& 0xFF).toUInt8, (w &&& 0xFF).toUInt8]

theorem be24_eq_be32 (b₀ b₁ b₂ : UInt8) : be24 b₀ b₁ b₂ = be32 0 b₀ b₁ b₂ := by
  have hzero : (0 : UInt8).toUInt32 <<< 24 = 0 := rfl
  rw [be24, be32, hzero, UInt32.zero_or]

theorem toNat_be24_lt (b₀ b₁ b₂ : UInt8) : (be24 b₀ b₁ b₂).toNat < 2 ^ 24 := by
  have h₀ := b₀.toNat_lt
  have h₁ := b₁.toNat_lt
  have h₂ := b₂.toNat_lt
  have hzero : (0 : UInt8).toNat = 0 := rfl
  rw [be24_eq_be32, toNat_be32, hzero]
  omega

theorem toUInt8_and_ff (w : UInt32) : (w &&& 0xFF).toUInt8 = w.toUInt8 := by
  have hff : (0xFF : UInt32).toNat = 2 ^ 8 - 1 := rfl
  apply UInt8.toNat_inj.mp
  rw [UInt32.toNat_toUInt8, UInt32.toNat_toUInt8, UInt32.toNat_and, hff,
    Nat.and_two_pow_sub_one_eq_mod, Nat.mod_mod]

/-- Below `2 ^ 24` the fourth byte is zero. -/
theorem bytes32_eq_cons {w : UInt32} (hw : w.toNat < 2 ^ 24) :
    bytes32 w = 0 :: bytes24 w := by
  have hhigh : (w >>> 24).toUInt8 = 0 := by
    apply UInt8.toNat_inj.mp
    have e24 : (24 : UInt32).toNat % 32 = 24 := rfl
    have hzero : (0 : UInt8).toNat = 0 := rfl
    rw [UInt32.toNat_toUInt8, UInt32.toNat_shiftRight, e24, Nat.shiftRight_eq_div_pow,
      hzero]
    omega
  rw [bytes32, bytes24, hhigh, toUInt8_and_ff, toUInt8_and_ff, toUInt8_and_ff]

theorem be24_eq_iff {b₀ b₁ b₂ : UInt8} {w : UInt32} (hw : w.toNat < 2 ^ 24) :
    be24 b₀ b₁ b₂ = w ↔ bytes24 w = [b₀, b₁, b₂] := by
  rw [be24_eq_be32, be32_eq_iff, bytes32_eq_cons hw, List.cons.injEq]
  exact and_iff_right rfl

end Bytes
