import Mathlib.Algebra.Order.Ring.Nat

/-!
# Byte order

Numbers as sequences of bytes: `toLE w n` and `toBE w n` are the `w` low bytes of `n`, the least and
the most significant first; `ofLE` reads a sequence the way a little-endian machine does. Swapping
the bytes of what such a machine reads from a big-endian field gives the number in the field
(`byteSwap_ofLE_toBE`). `readLE` reads a field at an offset of a buffer, if it lies inside.
-/

namespace ByteOrder

/-- The number that the bytes spell, the least significant byte first. -/
def ofLE : List UInt8 → Nat
  | [] => 0
  | b :: bs => b.toNat + 256 * ofLE bs

/-- The last `w` bytes of a number, the least significant first. -/
def toLE : Nat → Nat → List UInt8
  | 0, _ => []
  | w + 1, n => UInt8.ofNat n :: toLE w (n / 256)

/-- The same bytes, the most significant first. -/
def toBE (w n : Nat) : List UInt8 := (toLE w n).reverse

/-- The number with its `w` bytes in the opposite order. -/
def byteSwap (w n : Nat) : Nat := ofLE (toBE w n)

@[simp] theorem length_toLE (w n : Nat) : (toLE w n).length = w := by
  induction w generalizing n with
  | zero => rfl
  | succ w ih => rw [toLE, List.length_cons, ih]

@[simp] theorem length_toBE (w n : Nat) : (toBE w n).length = w := by
  rw [toBE, List.length_reverse, length_toLE]

theorem ofLE_toLE {w n : Nat} (h : n < 256 ^ w) : ofLE (toLE w n) = n := by
  induction w generalizing n with
  | zero =>
    rw [Nat.pow_zero] at h
    show 0 = n
    omega
  | succ w ih =>
    rw [Nat.pow_succ] at h
    rw [toLE, ofLE, ih (by omega), UInt8.toNat_ofNat']
    omega

theorem toLE_ofLE (bs : List UInt8) : toLE bs.length (ofLE bs) = bs := by
  induction bs with
  | nil => rfl
  | cons b bs ih =>
    have hb := b.toNat_lt
    rw [ofLE, List.length_cons, toLE, show (b.toNat + 256 * ofLE bs) / 256 = ofLE bs by omega, ih]
    congr 1
    rw [← UInt8.toNat_inj, UInt8.toNat_ofNat']
    omega

theorem ofLE_lt (bs : List UInt8) : ofLE bs < 256 ^ bs.length := by
  induction bs with
  | nil => exact Nat.one_pos
  | cons b bs ih =>
    have hb := b.toNat_lt
    rw [ofLE, List.length_cons, Nat.pow_succ]
    omega

/-- Distinct numbers of `w` bytes have distinct bytes. -/
theorem toLE_inj {w m n : Nat} (hm : m < 256 ^ w) (hn : n < 256 ^ w) :
    toLE w m = toLE w n ↔ m = n := by
  constructor
  · intro heq
    rw [← ofLE_toLE hm, heq, ofLE_toLE hn]
  · exact congrArg (toLE w)

/-- **A big-endian field, read in little-endian order and swapped.** -/
theorem byteSwap_ofLE_toBE {w n : Nat} (h : n < 256 ^ w) : byteSwap w (ofLE (toBE w n)) = n := by
  have hbytes := toLE_ofLE (toBE w n)
  rw [length_toBE] at hbytes
  unfold byteSwap
  rw [toBE, hbytes, toBE, List.reverse_reverse, ofLE_toLE h]

/-! ## Fields of a buffer -/

/-- The `w` bytes from `off` on, read in little-endian order; `none` if one of them is outside. -/
def readLE (bytes : List UInt8) : Nat → Nat → Option Nat
  | _, 0 => some 0
  | off, w + 1 => do
      let b ← bytes[off]?
      let high ← readLE bytes (off + 1) w
      return b.toNat + 256 * high

theorem readLE_isSome {bytes : List UInt8} {off w : Nat} (hw : 0 < w) :
    (readLE bytes off w).isSome ↔ off + w ≤ bytes.length := by
  induction w generalizing off with
  | zero => omega
  | succ w ih =>
    rcases Nat.lt_or_ge off bytes.length with hin | hout
    · rw [readLE, List.getElem?_eq_getElem hin]
      cases w with
      | zero => simp [readLE]; omega
      | succ w =>
        -- one byte here, and the others start at the next offset
        have hrest : (readLE bytes (off + 1) (w + 1)).isSome ↔ off + 1 + (w + 1) ≤ bytes.length :=
          ih (Nat.succ_pos w)
        cases hread : readLE bytes (off + 1) (w + 1) with
        | none =>
          rw [hread] at hrest
          simp at hrest ⊢
          omega
        | some high =>
          rw [hread] at hrest
          simp at hrest ⊢
          omega
    · -- the first byte is missing already
      rw [readLE, List.getElem?_eq_none hout]
      simp
      omega

theorem readLE_append_right (pre bytes : List UInt8) (off w : Nat) :
    readLE (pre ++ bytes) (pre.length + off) w = readLE bytes off w := by
  induction w generalizing off with
  | zero => rfl
  | succ w ih =>
    rw [readLE, readLE, Nat.add_assoc, ih (off + 1),
      List.getElem?_append_right (Nat.le_add_right _ _), Nat.add_sub_cancel_left]

theorem readLE_append_left (field post : List UInt8) :
    readLE (field ++ post) 0 field.length = some (ofLE field) := by
  induction field with
  | nil => rfl
  | cons b field ih =>
    have hrest := readLE_append_right [b] (field ++ post) 0 field.length
    rw [ih] at hrest
    rw [List.length_cons, readLE]
    simp only [List.cons_append, List.getElem?_cons_zero, Option.bind_eq_bind, Option.bind_some]
    rw [show readLE (b :: (field ++ post)) (0 + 1) field.length = some (ofLE field) from hrest]
    rfl

end ByteOrder
