import VersionedTree.Bytes

/-!
# Text — strings as byte strings

Names, keys and owners are strings; records hold their UTF-8 bytes. **`ofBytes?_toBytes`** says that the bytes of a
string decode to that string, and **`toBytes_injective`** that no two strings share their bytes.
-/

namespace VersionedTree.Text

/-- The UTF-8 bytes of a string. -/
def toBytes (s : String) : Bytes :=
  s.toByteArray.data.toList

/-- The string whose UTF-8 form is `data`, if there is one. -/
def ofBytes? (data : Bytes) : Option String :=
  String.fromUTF8? ⟨data.toArray⟩

/-- A text is read back from its bytes. -/
@[simp] theorem ofBytes?_toBytes (s : String) : ofBytes? (toBytes s) = some s := by
  have h : (⟨(toBytes s).toArray⟩ : ByteArray) = s.toByteArray := by simp [toBytes]
  unfold ofBytes? String.fromUTF8?
  rw [h, dif_pos s.isValidUTF8]
  rfl

/-- No two texts have the same bytes. -/
theorem toBytes_injective {s t : String} (h : toBytes s = toBytes t) : s = t := by
  have : some s = some t := by rw [← ofBytes?_toBytes s, h, ofBytes?_toBytes]
  exact Option.some.inj this

end VersionedTree.Text
