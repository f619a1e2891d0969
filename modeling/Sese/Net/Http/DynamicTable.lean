import Sese.Util.Bytes

/-!
# The HPACK tables

`PREDEFINED_HEADERS` and `DynamicTable`. New entries go to the back of the
queue. Eviction is kept exactly as it is written: it subtracts the size of the
entry at the back and removes the entry at the front, with `size_t` arithmetic,
and it never looks whether the queue is empty. An eviction that does reach the
empty queue is the fault `emptyDeque`.
-/
namespace Sese.Net.Http

/-- `PREDEFINED_HEADERS`; the entry with index 0 is a placeholder. -/
def predefinedHeaders : List (Bytes × Bytes) :=
   [("INVALIDINDEX", "INVALIDINDEX"), (":authority", ""), (":method", "GET"),
    (":method", "POST"), (":path", "/"), (":path", "/index.html"), (":scheme", "http"),
    (":scheme", "https"), (":status", "200"), (":status", "204"), (":status", "206"),
    (":status", "304"), (":status", "400"), (":status", "404"), (":status", "500"),
    ("accept-charset", ""), ("accept-encoding", "gzip, deflate"), ("accept-language", ""),
    ("accept-ranges", ""), ("accept", ""), ("access-control-allow-origin", ""), ("age", ""),
    ("allow", ""), ("authorization", ""), ("cache-control", ""), ("content-disposition", ""),
    ("content-encoding", ""), ("content-language", ""), ("content-length", ""),
    ("content-location", ""), ("content-range", ""), ("content-type", ""), ("cookie", ""),
    ("date", ""), ("etag", ""), ("expect", ""), ("expires", ""), ("from", ""), ("host", ""),
    ("if-match", ""), ("if-modified-since", ""), ("if-none-match", ""), ("if-range", ""),
    ("if-unmodified-since", ""), ("last-modified", ""), ("link", ""), ("location", ""),
    ("max-forwards", ""), ("proxy-authenticate", ""), ("proxy-authorization", ""),
    ("range", ""), ("referer", ""), ("refresh", ""), ("retry-after", ""), ("server", ""),
    ("set-cookie", ""), ("strict-transport-security", ""), ("transfer-encoding", ""),
    ("user-agent", ""), ("vary", ""), ("via", ""), ("www-authenticate", "")].map fun e => (bytes e.1, bytes e.2)

/-- `DynamicTable`, the queue from its front (oldest entry) to its back. -/
structure DynamicTable where
  max : ℕ := 4096
  size : ℕ := 0
  queue : List (Bytes × Bytes) := []
  deriving DecidableEq

namespace DynamicTable

/-- What an entry is charged; RFC 7541 has 32 in place of 4. -/
def entrySize (e : Bytes × Bytes) : ℕ := e.1.length + e.2.length + 4

/-- The loop shared by `set` and `resize`: while `size + addition` is above `max`,
the size of the entry at the back is subtracted and the front is removed. -/
def evict (max addition : ℕ) : ℕ → List (Bytes × Bytes) → Except Fault (ℕ × List (Bytes × Bytes))
  | size, [] => if (size + addition) % 2 ^ 64 > max then .error .emptyDeque else .ok (size, [])
  | size, e :: queue =>
    if (size + addition) % 2 ^ 64 > max then
      let back := (e :: queue).getLast (List.cons_ne_nil e queue)
      evict max addition ((size + 2 ^ 64 - entrySize back % 2 ^ 64) % 2 ^ 64) queue
    else .ok (size, e :: queue)

def resize (t : DynamicTable) (max : ℕ) : Except Fault DynamicTable := do
  let (size, queue) ← evict max 0 t.size t.queue
  return { max := max, size := size, queue := queue }

/-- `set`: an entry that cannot fit leaves the table as it is. -/
def set (t : DynamicTable) (key value : Bytes) : Except Fault (DynamicTable × Bool) :=
  if key.length > 2 ^ 64 - 1 - value.length then .ok (t, false)
  else
    let addition := entrySize (key, value) % 2 ^ 64
    if addition > t.max then .ok (t, false)
    else do
      let (size, queue) ← evict t.max addition t.size t.queue
      return ({ t with size := (size + addition) % 2 ^ 64, queue := queue ++ [(key, value)] }, true)

def get (t : DynamicTable) (index : ℕ) : Option (Bytes × Bytes) :=
  if index = 0 then none
  else if index < predefinedHeaders.length then predefinedHeaders[index]?
  else if index < predefinedHeaders.length + t.queue.length then
    t.queue[t.queue.length - 1 - (index - predefinedHeaders.length)]?
  else none

theorem get_predefined (t : DynamicTable) {i : ℕ} {e : Bytes × Bytes} (h₀ : i ≠ 0)
    (h : predefinedHeaders[i]? = some e) : t.get i = some e := by
  obtain ⟨hlt, -⟩ := List.getElem?_eq_some_iff.mp h
  rw [get, if_neg h₀, if_pos hlt, h]

/-- The index that `HPackUtil::encode` computes for the entry at position `i` of
the queue leads back to that entry. -/
theorem get_queue (t : DynamicTable) {i : ℕ} {e : Bytes × Bytes} (h : t.queue[i]? = some e) :
    t.get (t.queue.length - 1 - i + predefinedHeaders.length) = some e := by
  obtain ⟨hlt, -⟩ := List.getElem?_eq_some_iff.mp h
  have hpos : predefinedHeaders.length = 62 := rfl
  rw [get, if_neg (by omega), if_neg (by omega), if_pos (by omega)]
  have hi : t.queue.length - 1 - (t.queue.length - 1 - i + predefinedHeaders.length -
      predefinedHeaders.length) = i := by omega
  rw [hi, h]

end DynamicTable
end Sese.Net.Http
