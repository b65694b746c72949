/-!
# Bytes

The contents of a buffer, and everything that is written into one, is a list of bytes. The two
operations on it that all others are made of are taking a range and overwriting one.
-/

namespace Octets

/-- A sequence of bytes. -/
abbrev Bytes := List UInt8

namespace Bytes

/-- The bytes in `[start, stop)`. -/
def range (content : Bytes) (start stop : Nat) : Bytes := (content.drop start).take (stop - start)

/-- The bytes with `new` in place of those from `start` on. -/
def overwrite (content : Bytes) (start : Nat) (new : Bytes) : Bytes :=
  content.take start ++ new ++ content.drop (start + new.length)

@[simp] theorem length_range (content : Bytes) (start stop : Nat) :
    (content.range start stop).length = min (stop - start) (content.length - start) := by
  simp [range]

/-- A range that stops where it begins, or before, is empty. -/
theorem range_eq_nil (content : Bytes) {start stop : Nat} (h : stop ≤ start) :
    content.range start stop = [] := by
  rw [range, Nat.sub_eq_zero_of_le h, List.take_zero]

/-- A range that stops after it begins and lies in the bytes is not empty. -/
theorem range_ne_nil {content : Bytes} {start stop : Nat} (hlt : start < stop)
    (h : stop ≤ content.length) : content.range start stop ≠ [] := by
  refine List.ne_nil_of_length_pos ?_
  rw [length_range]
  omega

/-- A range that lies in the bytes has all the bytes it is asked for. -/
theorem length_range_add {content : Bytes} {start count : Nat}
    (h : start + count ≤ content.length) :
    (content.range start (start + count)).length = count := by
  rw [length_range]
  omega

/-- The byte at a position of a range. -/
theorem getElem?_range (content : Bytes) {start stop i : Nat} (h : i < stop - start) :
    (content.range start stop)[i]? = content[start + i]? := by
  rw [range, List.getElem?_take_of_lt h, List.getElem?_drop]

/-- Overwriting inside the bytes keeps their number. -/
theorem length_overwrite {content : Bytes} {start : Nat} {new : Bytes}
    (h : start + new.length ≤ content.length) :
    (content.overwrite start new).length = content.length := by
  simp only [overwrite, List.length_append, List.length_take, List.length_drop]
  omega

/-- The byte at a position after overwriting. -/
theorem getElem?_overwrite {content : Bytes} {start : Nat} {new : Bytes}
    (h : start + new.length ≤ content.length) (i : Nat) :
    (content.overwrite start new)[i]? =
      if start ≤ i ∧ i < start + new.length then new[i - start]? else content[i]? := by
  have hstart : (content.take start).length = start := by simp; omega
  unfold overwrite
  by_cases hlow : i < start
  · rw [if_neg (by omega), List.getElem?_append_left (by simp; omega),
      List.getElem?_append_left (by simp; omega), List.getElem?_take_of_lt hlow]
  · by_cases hhigh : i < start + new.length
    · rw [if_pos (by omega), List.getElem?_append_left (by simp; omega),
        List.getElem?_append_right (by omega), hstart]
    · rw [if_neg (by omega), List.getElem?_append_right (by simp; omega),
        List.getElem?_drop]
      congr 1
      simp only [List.length_append, hstart]
      omega

/-- Overwriting inside a range of bytes is overwriting the bytes. -/
theorem overwrite_overwrite_range {content : Bytes} {start stop k : Nat} {new : Bytes}
    (h : stop ≤ content.length) (hnew : start + k + new.length ≤ stop) :
    content.overwrite start ((content.range start stop).overwrite k new) =
      content.overwrite (start + k) new := by
  have hlen : (content.range start stop).length = stop - start := by simp; omega
  have hinner : ((content.range start stop).overwrite k new).length = stop - start := by
    rw [length_overwrite (by omega), hlen]
  apply List.ext_getElem?
  intro i
  rw [getElem?_overwrite (by omega), getElem?_overwrite (by omega), hinner]
  by_cases hin : start ≤ i ∧ i < start + (stop - start)
  · rw [if_pos hin, getElem?_overwrite (by omega)]
    by_cases hnewIn : start + k ≤ i ∧ i < start + k + new.length
    · rw [if_pos (by omega), if_pos hnewIn]
      congr 1
      omega
    · rw [if_neg (by omega), if_neg hnewIn, getElem?_range _ (by omega)]
      congr 1
      omega
  · rw [if_neg hin, getElem?_overwrite (by omega), if_neg (by omega)]

/-- The middle of three sequences is a range. -/
theorem range_append_append (first middle last : Bytes) :
    (first ++ (middle ++ last)).range first.length (first.length + middle.length) = middle := by
  rw [range, List.drop_left, Nat.add_sub_cancel_left, List.take_left]

/-- The beginning of a range is a range. -/
theorem take_range (content : Bytes) (start stop count : Nat) :
    (content.range start stop).take count = content.range start (min stop (start + count)) := by
  unfold range
  rw [List.take_take]
  congr 1
  omega

/-- A range of a range is a range. -/
theorem range_range (content : Bytes) (start stop first last : Nat) :
    (content.range start stop).range first last =
      content.range (start + first) (min stop (start + last)) := by
  unfold range
  rw [List.drop_take, List.drop_drop, List.take_take]
  congr 1
  omega

/-- Two ranges, the second just after the first, are one range. -/
theorem range_append_range (content : Bytes) {start middle stop : Nat} (hfirst : start ≤ middle)
    (hsecond : middle ≤ stop) :
    content.range start middle ++ content.range middle stop = content.range start stop := by
  have hdrop : content.drop middle = (content.drop start).drop (middle - start) := by
    rw [List.drop_drop, Nat.add_sub_cancel' hfirst]
  unfold range
  rw [hdrop, ← List.take_add]
  congr 1
  omega

/-- Overwriting the same place again leaves nothing of what was written before. -/
theorem overwrite_overwrite_self {content first second : Bytes} {start : Nat}
    (h : start + first.length ≤ content.length) (hlen : second.length = first.length) :
    (content.overwrite start first).overwrite start second = content.overwrite start second := by
  have hfirst : (content.overwrite start first).length = content.length := length_overwrite h
  apply List.ext_getElem?
  intro i
  rw [getElem?_overwrite (by omega), getElem?_overwrite (by omega), getElem?_overwrite (by omega),
    hlen]
  split
  · rfl
  · rfl

/-- Overwriting twice, the second time just after the first, is overwriting once. -/
theorem overwrite_overwrite_append {content first second : Bytes} {start : Nat}
    (h : start + first.length + second.length ≤ content.length) :
    (content.overwrite start first).overwrite (start + first.length) second =
      content.overwrite start (first ++ second) := by
  have hfirst : (content.overwrite start first).length = content.length :=
    length_overwrite (by omega)
  have hboth : (first ++ second).length = first.length + second.length := List.length_append
  apply List.ext_getElem?
  intro i
  rw [getElem?_overwrite (by omega), getElem?_overwrite (by omega), getElem?_overwrite (by omega),
    hboth]
  by_cases hlow : i < start + first.length
  · rw [if_neg (by omega)]
    by_cases hin : start ≤ i
    · rw [if_pos (by omega), if_pos (by omega), List.getElem?_append_left (by omega)]
    · rw [if_neg (by omega), if_neg (by omega)]
  · by_cases hin : i < start + first.length + second.length
    · rw [if_pos (by omega), if_pos (by omega), List.getElem?_append_right (by omega)]
      congr 1
      omega
    · rw [if_neg (by omega), if_neg (by omega), if_neg (by omega)]

/-- A range of what was written is a range of the new bytes. -/
theorem range_overwrite {content new : Bytes} {start first last : Nat} (hlast : last ≤ new.length)
    (h : start + new.length ≤ content.length) :
    (content.overwrite start new).range (start + first) (start + last) = new.range first last := by
  apply List.ext_getElem?
  intro i
  by_cases hi : i < last - first
  · rw [getElem?_range _ (by omega), getElem?_range _ hi, getElem?_overwrite h, if_pos (by omega)]
    congr 1
    omega
  · rw [List.getElem?_eq_none (by rw [length_range]; omega),
      List.getElem?_eq_none (by rw [length_range]; omega)]

/-- Overwriting with one byte is setting it. -/
theorem overwrite_singleton {content : Bytes} {i : Nat} (h : i < content.length) (b : UInt8) :
    content.overwrite i [b] = content.set i b := by
  rw [overwrite, List.set_eq_take_append_cons_drop, if_pos h, List.append_assoc]
  rfl

/-- Overwriting with nothing changes nothing. -/
@[simp] theorem overwrite_nil (content : Bytes) (start : Nat) :
    content.overwrite start [] = content := by
  simp [overwrite]

/-- Writing back what stands there changes nothing. -/
theorem overwrite_range {content : Bytes} {start stop : Nat} (h : stop ≤ content.length)
    (hle : start ≤ stop) : content.overwrite start (content.range start stop) = content := by
  have hlen : (content.range start stop).length = stop - start := by simp; omega
  unfold overwrite
  rw [hlen, range, List.append_assoc, show start + (stop - start) = stop by omega]
  have : content.drop stop = (content.drop start).drop (stop - start) := by
    rw [List.drop_drop]; congr 1; omega
  rw [this, List.take_append_drop, List.take_append_drop]

end Bytes

end Octets
