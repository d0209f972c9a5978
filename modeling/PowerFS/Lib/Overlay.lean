import Mathlib.Data.List.Basic

/-!
# Copies into a buffer

`overlay buf pos data` is `buf` after `memcpy(buf + pos, data, |data|)`.
-/

namespace Overlay

variable {α : Type*}

def overlay (buf : List α) (pos : ℕ) (data : List α) : List α :=
  buf.take pos ++ data ++ buf.drop (pos + data.length)

variable {buf data : List α} {pos : ℕ}

theorem length_overlay (h : pos + data.length ≤ buf.length) :
    (overlay buf pos data).length = buf.length := by
  simp only [overlay, List.length_append, List.length_take, List.length_drop]
  omega

@[simp] theorem overlay_nil : overlay buf pos [] = buf := by
  simp [overlay]

theorem take_overlay (h : pos ≤ buf.length) :
    (overlay buf pos data).take (pos + data.length) = buf.take pos ++ data := by
  have hlen : (buf.take pos ++ data).length = pos + data.length := by
    rw [List.length_append, List.length_take, Nat.min_eq_left h]
  rw [overlay, ← hlen, List.take_left]

theorem getElem?_overlay_of_mem (h : pos ≤ buf.length) {i : ℕ} (hlo : pos ≤ i)
    (hhi : i < pos + data.length) : (overlay buf pos data)[i]? = data[i - pos]? := by
  have htake : (buf.take pos).length = pos := by rw [List.length_take, Nat.min_eq_left h]
  rw [overlay, List.append_assoc, List.getElem?_append_right (by omega), htake,
    List.getElem?_append_left (by omega)]

theorem getElem?_overlay_of_not_mem (h : pos ≤ buf.length) {i : ℕ}
    (hi : i < pos ∨ pos + data.length ≤ i) : (overlay buf pos data)[i]? = buf[i]? := by
  have htake : (buf.take pos).length = pos := by rw [List.length_take, Nat.min_eq_left h]
  rcases hi with hlo | hhi
  · rw [overlay, List.append_assoc, List.getElem?_append_left (by omega),
      List.getElem?_take_of_lt hlo]
  · rw [overlay, List.getElem?_append_right (by rw [List.length_append]; omega),
      List.length_append, List.getElem?_drop]
    congr 1
    omega

end Overlay
