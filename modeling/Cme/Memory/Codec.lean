import Mathlib.Algebra.Group.Nat.Defs
import Mathlib.Logic.Equiv.Defs

/-!
# Memory — values copied as bytes

A `Codec` copies the values of a type to a fixed number of bytes and back, and
loses nothing either way. Words are little-endian; a record is the codecs of its
fields one after another, carried over to the record's own type.
-/

namespace Memory

abbrev Byte := BitVec 8

/-- Values of `α` as `size` bytes. `decode` is meant for that many bytes. -/
structure Codec (α : Type) where
  size : Nat
  encode : α → List Byte
  decode : List Byte → α
  length_encode : ∀ a, (encode a).length = size
  decode_encode : ∀ a, decode (encode a) = a
  encode_decode : ∀ b, b.length = size → encode (decode b) = b

namespace Codec

variable {α β : Type}

attribute [simp] length_encode decode_encode

/-- The value copied out of a buffer at an offset. -/
def load (c : Codec α) (offset : Nat) (bytes : List Byte) : α :=
  c.decode ((bytes.drop offset).take c.size)

theorem encode_load (c : Codec α) {offset : Nat} {bytes : List Byte}
    (h : offset + c.size ≤ bytes.length) :
    c.encode (c.load offset bytes) = (bytes.drop offset).take c.size := by
  refine c.encode_decode _ ?_
  rw [List.length_take, List.length_drop]
  omega

@[simp] theorem load_append (c : Codec α) (a : α) (rest : List Byte) :
    c.load 0 (c.encode a ++ rest) = a := by
  simp [load, List.take_append]

/-- A 32-bit word, its low byte first. -/
def word : Codec (BitVec 32) where
  size := 4
  encode w := [.ofNat 8 w.toNat, .ofNat 8 (w.toNat / 2 ^ 8), .ofNat 8 (w.toNat / 2 ^ 16),
    .ofNat 8 (w.toNat / 2 ^ 24)]
  decode b := .ofNat 32 (b.foldr (fun byte high => byte.toNat + 2 ^ 8 * high) 0)
  length_encode _ := rfl
  decode_encode w := by
    apply BitVec.eq_of_toNat_eq
    simp only [List.foldr_cons, List.foldr_nil, BitVec.toNat_ofNat]
    omega
  encode_decode b h := by
    obtain ⟨b₀, b₁, b₂, b₃, rfl⟩ : ∃ b₀ b₁ b₂ b₃, b = [b₀, b₁, b₂, b₃] := by
      match b, h with
      | [b₀, b₁, b₂, b₃], _ => exact ⟨b₀, b₁, b₂, b₃, rfl⟩
    have h₀ := b₀.isLt
    have h₁ := b₁.isLt
    have h₂ := b₂.isLt
    have h₃ := b₃.isLt
    simp only [List.foldr_cons, List.foldr_nil, BitVec.toNat_ofNat, List.cons.injEq, and_true]
    refine ⟨?_, ?_, ?_, ?_⟩ <;> apply BitVec.eq_of_toNat_eq <;> rw [BitVec.toNat_ofNat] <;> omega

/-- An array of bytes. -/
def array (n : Nat) : Codec (Vector Byte n) where
  size := n
  encode v := v.toList
  decode b := .ofFn fun i => b.getD i 0
  length_encode _ := by simp
  decode_encode v := by
    ext i hi
    simp [hi]
  encode_decode b h := by
    apply List.ext_getElem
    · simp [h]
    · intro i _ hi
      simp [hi]

/-- One value behind another. -/
def pair (c : Codec α) (d : Codec β) : Codec (α × β) where
  size := c.size + d.size
  encode a := c.encode a.1 ++ d.encode a.2
  decode b := (c.decode (b.take c.size), d.decode (b.drop c.size))
  length_encode a := by simp
  decode_encode a := by simp [List.take_append, List.drop_append]
  encode_decode b h := by
    rw [c.encode_decode _ (by rw [List.length_take]; omega),
      d.encode_decode _ (by rw [List.length_drop]; omega), List.take_append_drop]

/-- The bytes of one type, read as another of the same values. -/
def carry (c : Codec α) (e : α ≃ β) : Codec β where
  size := c.size
  encode b := c.encode (e.symm b)
  decode b := e (c.decode b)
  length_encode _ := by simp
  decode_encode _ := by simp
  encode_decode b h := by simp [c.encode_decode b h]

end Codec

end Memory
