set_option autoImplicit false

/-! # Byte strings

Everything that is stored, hashed or sent is a list of bytes. Text enters and leaves it through
UTF-8: `Bytes.toText?` reads back exactly what `Bytes.ofText` writes
(`Bytes.toText?_eq_some_iff`). -/

namespace GossipStore

/-- A byte string. -/
abbrev Bytes := List UInt8

namespace Bytes

/-- The UTF-8 form of a text. -/
def ofText (s : String) : Bytes := s.toByteArray.data.toList

/-- The text whose UTF-8 form the bytes are, if there is one. -/
def toText? (b : Bytes) : Option String := String.fromUTF8? ⟨b.toArray⟩

theorem toText?_ofText (s : String) : toText? (ofText s) = some s := by
  have h : (⟨(ofText s).toArray⟩ : ByteArray) = s.toByteArray := by simp [ofText]
  simp [toText?, h, String.fromUTF8?, s.isValidUTF8, String.fromUTF8]

/-- Reading accepts exactly the UTF-8 forms. -/
theorem toText?_eq_some_iff {b : Bytes} {s : String} : toText? b = some s ↔ ofText s = b := by
  refine ⟨fun h => ?_, fun h => h ▸ toText?_ofText s⟩
  rw [toText?, String.fromUTF8?] at h
  split at h
  · have h := Option.some.inj h
    subst h
    simp [ofText, String.fromUTF8]
  · simp at h

/-- The value of the bytes read as a big-endian number. -/
def toNat (b : Bytes) : Nat := b.foldl (fun n byte => n * 256 + byte.toNat) 0

/-- The last `width` base-256 digits of a number, most significant first. -/
def ofNat : (width : Nat) → Nat → Bytes
  | 0, _ => []
  | width + 1, n => ofNat width (n / 256) ++ [UInt8.ofNat n]

theorem length_ofNat (width n : Nat) : (ofNat width n).length = width := by
  induction width generalizing n with
  | zero => rfl
  | succ width ih => simp [ofNat, ih]

theorem toNat_append_singleton (b : Bytes) (byte : UInt8) :
    toNat (b ++ [byte]) = toNat b * 256 + byte.toNat := by
  simp [toNat]

theorem toNat_ofNat {width n : Nat} (h : n < Nat.pow 256 width) : toNat (ofNat width n) = n := by
  induction width generalizing n with
  | zero =>
    have h : n < 1 := h
    obtain rfl : n = 0 := by omega
    rfl
  | succ width ih =>
    have hd : n / 256 < Nat.pow 256 width := (Nat.div_lt_iff_lt_mul (by decide)).2 h
    rw [ofNat, toNat_append_singleton, ih hd, UInt8.toNat_ofNat']
    omega

end Bytes

end GossipStore
