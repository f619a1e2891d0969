import Sese.Foundation.Overwrite
import Sese.Util.Bytes

/-!
# Copies into and out of an array

`memcpy` between an array of octets and something else. A copy that goes past the end of
the array is a fault.
-/
namespace Sese

open Foundation

def load (buf : Bytes) (pos n : ℕ) : Except Fault Bytes :=
  if pos + n ≤ buf.length then .ok (window buf pos n) else .error .overread

def store (buf : Bytes) (pos : ℕ) (src : Bytes) : Except Fault Bytes :=
  if pos + src.length ≤ buf.length then .ok (overwrite buf pos src) else .error .overflow

def memset (buf : Bytes) (pos : ℕ) (value : UInt8) (n : ℕ) : Except Fault Bytes :=
  if pos + n ≤ buf.length then .ok (overwrite buf pos (List.replicate n value)) else .error .overflow

/-- `ToBigEndian64`, as it is copied. -/
def toBigEndian64 (n : ℕ) : Bytes := toBigEndian32 (n / 2 ^ 32) ++ toBigEndian32 n

theorem memset_eq_store (buf : Bytes) (pos : ℕ) (value : UInt8) (n : ℕ) :
    memset buf pos value n = store buf pos (List.replicate n value) := by
  simp [memset, store]

theorem load_append {pre block post : Bytes} {pos n : ℕ} (hpos : pos = pre.length)
    (hn : n = block.length) : load (pre ++ (block ++ post)) pos n = .ok block := by
  rw [load, if_pos, window_append hpos hn]
  simp only [List.length_append]
  omega

theorem store_append {pre block post src : Bytes} {pos : ℕ} (hpos : pos = pre.length)
    (h : src.length = block.length) :
    store (pre ++ (block ++ post)) pos src = .ok (pre ++ (src ++ post)) := by
  rw [store, if_pos, overwrite_append hpos h]
  simp only [List.length_append]
  omega

theorem store_left {pre rest src : Bytes} {pos : ℕ} (hpos : pos = pre.length)
    (h : src.length ≤ rest.length) :
    store (pre ++ rest) pos src = .ok (pre ++ (src ++ rest.drop src.length)) := by
  rw [store, if_pos, overwrite_left hpos h]
  simp only [List.length_append]
  omega

end Sese
