import Mathlib.Data.List.Basic

/-!
# Sliding windows over a history

A window of a fixed size shows the latest entries of a history.  A history lists the latest entry first, the
window shows it last, and a default stands in the places that the history does not fill yet.
-/

namespace SvpChain

variable {α : Type*}

/-- The window of the given size over a history. -/
def slide (fill : α) (size : ℕ) (history : List α) : List α :=
  List.replicate (size - history.length) fill ++ (history.take size).reverse

namespace Slide

variable {fill entry : α} {size : ℕ} {history : List α}

@[simp]
theorem slide_nil : slide fill size [] = List.replicate size fill := by simp [slide]

@[simp]
theorem length_slide : (slide fill size history).length = size := by
  simp only [slide, List.length_append, List.length_replicate, List.length_reverse, List.length_take]
  omega

theorem tail_slide : (slide fill (size + 1) history).tail = slide fill size history := by
  by_cases full : size < history.length
  · have no_fill : size + 1 - history.length = 0 := by omega
    have last : (history.take (size + 1)).dropLast = history.take size := by
      rw [List.dropLast_eq_take, List.length_take, Nat.min_eq_left full, List.take_take]
      simp
    simp [slide, no_fill, Nat.sub_eq_zero_of_le (Nat.le_of_lt full), List.tail_reverse, last]
  · have some_fill : size + 1 - history.length = size - history.length + 1 := by omega
    have short : history.length ≤ size := by omega
    have whole : history.take (size + 1) = history := List.take_of_length_le (Nat.le_succ_of_le short)
    simp [slide, some_fill, List.replicate_succ, List.take_of_length_le short, whole]

theorem slide_cons (size_pos : 0 < size) :
    slide fill size (entry :: history) = (slide fill size history).tail ++ [entry] := by
  obtain ⟨size, rfl⟩ := Nat.exists_eq_add_of_lt size_pos
  rw [Nat.zero_add, tail_slide]
  simp [slide]

/-- Entries before the first place of the window are not seen. -/
@[simp]
theorem slide_take : slide fill size (history.take size) = slide fill size history := by
  have same_fill : size - min size history.length = size - history.length := by omega
  simp [slide, List.take_take, same_fill]

theorem getElem?_slide {place : ℕ} (free : history.length + (place + 1) = size) :
    (slide fill size history)[place]? = some fill := by
  have filled : size - history.length = place + 1 := by omega
  rw [slide, filled, List.getElem?_append_left (by simp)]
  simp

theorem set_slide {place : ℕ} (free : history.length + (place + 1) = size) :
    (slide fill size history).set place entry = slide fill size (history ++ [entry]) := by
  have filled : size - history.length = place + 1 := by omega
  have filled' : size - (history.length + 1) = place := by omega
  have short : history.length ≤ size := by omega
  have short' : (history ++ [entry]).length ≤ size := by
    rw [List.length_append, List.length_singleton]
    omega
  rw [slide, slide, List.length_append, List.length_singleton, filled, filled', List.take_of_length_le short,
    List.take_of_length_le short', List.replicate_succ', List.append_assoc, List.reverse_append,
    List.set_append_right _ _ (by simp)]
  simp

end Slide

end SvpChain
