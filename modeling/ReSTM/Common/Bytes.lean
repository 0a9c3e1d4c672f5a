import Mathlib.Algebra.Order.Group.Nat
import Mathlib.Data.List.Basic

/-!
# Big-endian bytes and the bits of a double

`encode n v` is the number `v` in `n` bytes, the most significant one first. A `long` is written
and read in eight bytes, a `double` by its bits. The bits of every NaN are those of one NaN.

* `decode_encode`: a number that fits is read back.
* `longBitsToDouble_fromByteArray`: a double is read back.
-/

namespace JavaBytes

/-- The last `n` bytes of a number. -/
def encode : ℕ → ℕ → List UInt8
  | 0, _ => []
  | n + 1, v => encode n (v / 256) ++ [UInt8.ofNat v]

/-- The number with these bytes. -/
def decode (bytes : List UInt8) : ℕ := bytes.foldl (fun v b => v * 256 + b.toNat) 0

@[simp] theorem length_encode (n v : ℕ) : (encode n v).length = n := by
  induction n generalizing v with
  | zero => rfl
  | succ n ih => rw [encode, List.length_append, ih, List.length_singleton]

theorem decode_append_singleton (bytes : List UInt8) (b : UInt8) :
    decode (bytes ++ [b]) = decode bytes * 256 + b.toNat := List.foldl_concat ..

theorem decode_encode (n v : ℕ) : decode (encode n v) = v % 256 ^ n := by
  induction n generalizing v with
  | zero => exact (Nat.mod_one v).symm
  | succ n ih =>
    have hbyte : (UInt8.ofNat v).toNat = v % 256 := rfl
    rw [encode, decode_append_singleton, ih, hbyte, Nat.pow_succ', Nat.mod_mul, Nat.mul_comm,
      Nat.add_comm]

/-- `Longs.toByteArray`. -/
def toByteArray (x : UInt64) : List UInt8 := encode 8 x.toNat

/-- `Longs.fromByteArray`, which reads the first eight bytes. -/
def fromByteArray (bytes : List UInt8) : UInt64 := UInt64.ofNat (decode (bytes.take 8))

@[simp] theorem length_toByteArray (x : UInt64) : (toByteArray x).length = 8 := length_encode 8 _

@[simp] theorem fromByteArray_toByteArray (x : UInt64) : fromByteArray (toByteArray x) = x := by
  have hlt : x.toNat < 256 ^ 8 := x.toNat_lt
  rw [fromByteArray, List.take_of_length_le (length_toByteArray x).le, toByteArray, decode_encode,
    Nat.mod_eq_of_lt hlt]
  exact UInt64.ofNat_toNat

/-! ## Doubles -/

open Float.Model

/-- `Double.doubleToLongBits`. -/
def doubleToLongBits (x : Float) : UInt64 := x.toBits

/-- If they are the bits of a NaN, they are those of `Double.NaN`. -/
def NoOtherNaN (bits : UInt64) : Prop :=
  @UnpackedFloat.unpackExponent Format.binary64 bits.toBitVec = -1#11 →
    @UnpackedFloat.unpackMantissa Format.binary64 bits.toBitVec ≠ 0#52 →
      bits.toBitVec = UnpackedFloat.packedNaN Format.binary64

instance (bits : UInt64) : Decidable (NoOtherNaN bits) := by
  unfold NoOtherNaN
  infer_instance

/-- `Double.NaN`. -/
def nan : Float := .ofModel ⟨0x7ff8000000000000, ⟨fun _ _ => rfl⟩⟩

/-- `Double.longBitsToDouble`. -/
def longBitsToDouble (bits : UInt64) : Float :=
  if h : NoOtherNaN bits then .ofModel ⟨bits, ⟨h⟩⟩ else nan

@[simp] theorem longBitsToDouble_doubleToLongBits (x : Float) :
    longBitsToDouble (doubleToLongBits x) = x := by
  obtain ⟨⟨bits, hvalid⟩⟩ := x
  exact dif_pos hvalid.eq_packedNaN

theorem length_doubleBytes (x : Float) : (toByteArray (doubleToLongBits x)).length = 8 :=
  length_toByteArray _

/-- A double is read back from its eight bytes. -/
theorem longBitsToDouble_fromByteArray (x : Float) :
    longBitsToDouble (fromByteArray (toByteArray (doubleToLongBits x))) = x := by
  rw [fromByteArray_toByteArray, longBitsToDouble_doubleToLongBits]

end JavaBytes
