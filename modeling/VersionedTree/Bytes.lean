/-!
# Byte strings — agreement and chunks

Everything the library stores, compares or prints is a list of bytes. This file fixes that type and the two
operations on it that have no name in the core library:

* **`agreement`** — how far two byte strings agree, counted from their first bytes.
* **`chunks`** — a byte string cut into pieces of one size, the last piece possibly shorter; **`flatten_chunks`** says
  that cutting loses nothing.
-/

namespace VersionedTree

/-- A byte string. -/
abbrev Bytes := List UInt8

/-- The number of leading positions at which two byte strings agree. -/
def agreement : Bytes → Bytes → Nat
  | x :: xs, y :: ys => if x = y then agreement xs ys + 1 else 0
  | _, _ => 0

/-- A byte string cut into pieces of `size` bytes; only the last piece may be shorter, and no piece is empty. -/
def chunks (size : Nat) (hsize : 0 < size) (data : Bytes) : List Bytes :=
  match data with
  | [] => []
  | b :: rest => (b :: rest).take size :: chunks size hsize ((b :: rest).drop size)
termination_by data.length
decreasing_by
  simp only [List.length_drop, List.length_cons]
  omega

/-- Putting the pieces together again gives the byte string that was cut. -/
theorem flatten_chunks (size : Nat) (hsize : 0 < size) (data : Bytes) :
    (chunks size hsize data).flatten = data := by
  fun_induction chunks size hsize data with
  | case1 => rfl
  | case2 b rest ih => rw [List.flatten_cons, ih, List.take_append_drop]

/-- No piece is longer than the size asked for. -/
theorem length_le_of_mem_chunks {size : Nat} {hsize : 0 < size} {data piece : Bytes}
    (h : piece ∈ chunks size hsize data) : piece.length ≤ size := by
  fun_induction chunks size hsize data with
  | case1 => cases h
  | case2 b rest ih =>
    rcases List.mem_cons.1 h with rfl | h
    · exact List.length_take_le _ _
    · exact ih h

end VersionedTree
