import Mathlib.Data.List.Basic
import Mathlib.Tactic

/-!
# Network byte order

The conversions of `endian.h` as byte lists: a word is stored most significant
byte first, and read back from any offset of a block of memory.
-/

namespace Foundation

def htobe16 (x : UInt16) : List UInt8 :=
  [UInt8.ofNat (x.toNat / 256), UInt8.ofNat (x.toNat % 256)]

def be16toh (hi lo : UInt8) : UInt16 :=
  UInt16.ofNat (hi.toNat * 256 + lo.toNat)

def htobe32 (x : UInt32) : List UInt8 :=
  htobe16 (UInt16.ofNat (x.toNat / 65536)) ++
    htobe16 (UInt16.ofNat (x.toNat % 65536))

def be16At (buf : List UInt8) (off : Nat) : UInt16 :=
  be16toh (buf.getD off 0) (buf.getD (off + 1) 0)

def be32At (buf : List UInt8) (off : Nat) : UInt32 :=
  UInt32.ofNat ((be16At buf off).toNat * 65536 + (be16At buf (off + 2)).toNat)

@[simp] theorem length_htobe16 (x : UInt16) : (htobe16 x).length = 2 := rfl

@[simp] theorem length_htobe32 (x : UInt32) : (htobe32 x).length = 4 := rfl

theorem be16toh_htobe16 (x : UInt16) :
    be16toh (UInt8.ofNat (x.toNat / 256)) (UInt8.ofNat (x.toNat % 256)) =
      x := by
  apply UInt16.toNat_inj.mp
  have hx := x.toNat_lt
  simp only [be16toh, UInt16.toNat_ofNat', UInt8.toNat_ofNat']
  omega

theorem be16At_append (front : List UInt8) (x : UInt16) (rest : List UInt8) :
    be16At (front ++ (htobe16 x ++ rest)) front.length = x := by
  have hlo : (front ++ (htobe16 x ++ rest)).getD (front.length + 1) 0 =
      UInt8.ofNat (x.toNat % 256) := by
    simp [List.getD_eq_getElem?_getD, htobe16]
  have hhi : (front ++ (htobe16 x ++ rest)).getD front.length 0 =
      UInt8.ofNat (x.toNat / 256) := by
    simp [List.getD_eq_getElem?_getD, htobe16]
  rw [be16At, hhi, hlo, be16toh_htobe16]

theorem be16At_congr {buf buf' : List UInt8} {off : Nat}
    (h₀ : buf[off]? = buf'[off]?) (h₁ : buf[off + 1]? = buf'[off + 1]?) :
    be16At buf off = be16At buf' off := by
  simp [be16At, List.getD_eq_getElem?_getD, h₀, h₁]

theorem be32At_congr {buf buf' : List UInt8} {off : Nat}
    (h : ∀ i < 4, buf[off + i]? = buf'[off + i]?) :
    be32At buf off = be32At buf' off := by
  have hfirst : be16At buf off = be16At buf' off :=
    be16At_congr (h 0 (by decide)) (h 1 (by decide))
  have hsecond : be16At buf (off + 2) = be16At buf' (off + 2) :=
    be16At_congr (h 2 (by decide)) (h 3 (by decide))
  rw [be32At, be32At, hfirst, hsecond]

theorem be32At_htobe32 (x : UInt32) (rest : List UInt8) :
    be32At (htobe32 x ++ rest) 0 = x := by
  have hx := x.toNat_lt
  have hhigh := be16At_append [] (UInt16.ofNat (x.toNat / 65536))
    (htobe16 (UInt16.ofNat (x.toNat % 65536)) ++ rest)
  have hlow := be16At_append (htobe16 (UInt16.ofNat (x.toNat / 65536)))
    (UInt16.ofNat (x.toNat % 65536)) rest
  rw [List.nil_append, List.length_nil, ← List.append_assoc] at hhigh
  rw [length_htobe16, ← List.append_assoc] at hlow
  apply UInt32.toNat_inj.mp
  rw [be32At, htobe32, hhigh, hlow]
  simp only [UInt32.toNat_ofNat', UInt16.toNat_ofNat']
  omega

end Foundation
