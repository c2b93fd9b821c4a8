import NodeStore.Bytes

/-!
# Strings as UTF-8 bytes

* `Utf8.encode` / `Utf8.decode?`; decoding accepts well-formed UTF-8 only.
* `Utf8.size`, the number of bytes of a string.
-/

namespace NodeStore.Utf8

/-- The UTF-8 bytes of a string. -/
def encode (s : String) : Bytes := s.toByteArray.data.toList

/-- The string with the given UTF-8 bytes, if they are well formed. -/
def decode? (bs : Bytes) : Option String := String.fromUTF8? ⟨bs.toArray⟩

/-- The length of a string in bytes. -/
def size (s : String) : Nat := s.utf8ByteSize

@[simp] theorem length_encode (s : String) : (encode s).length = size s := by
  rw [encode, size, Array.length_toList, ← ByteArray.size, String.size_toByteArray]

theorem decode?_encode (s : String) : decode? (encode s) = some s := by
  simp [decode?, encode, String.fromUTF8?, s.isValidUTF8, String.fromUTF8]

end NodeStore.Utf8
