import Octets.Action
import Octets.Argument

/-!
# Comparison

The order of byte sequences is lexicographic: the first byte that differs decides, and a proper
beginning comes first.
-/

namespace Octets.Bytes

/-- The lexicographic order of byte sequences. -/
def order : Bytes → Bytes → Ordering
  | [], [] => .eq
  | [], _ :: _ => .lt
  | _ :: _, [] => .gt
  | a :: as, b :: bs => if a < b then .lt else if b < a then .gt else order as bs

@[simp] theorem order_self (content : Bytes) : order content content = .eq := by
  induction content with
  | nil => rfl
  | cons a rest ih => simp [order, ih]

/-- Two sequences are of the same rank only if they are the same. -/
theorem order_eq_iff {a b : Bytes} : order a b = .eq ↔ a = b := by
  induction a generalizing b with
  | nil => cases b <;> simp [order]
  | cons x xs ih =>
    cases b with
    | nil => simp [order]
    | cons y ys =>
      by_cases hxy : x = y
      · subst hxy; simp [order, ih]
      · rcases UInt8.lt_or_lt_of_ne hxy with h | h
        · simp [order, h, hxy]
        · have hn : ¬x < y := UInt8.lt_asymm h
          simp [order, h, hn, hxy]

/-- Exchanging the two sequences exchanges below and above. -/
theorem order_swap (a b : Bytes) : (order a b).swap = order b a := by
  induction a generalizing b with
  | nil => cases b <;> rfl
  | cons x xs ih =>
    cases b with
    | nil => rfl
    | cons y ys =>
      by_cases hxy : x < y
      · have hyx : ¬y < x := UInt8.lt_asymm hxy
        simp [order, hxy, hyx]
      · by_cases hyx : y < x
        · simp [order, hxy, hyx]
        · simp [order, hxy, hyx, ih]

/-- The first byte that differs is the lesser one, or the one sequence is a proper beginning of the
other. -/
theorem order_lt_iff {a b : Bytes} : order a b = .lt ↔ List.Lex (· < ·) a b := by
  induction a generalizing b with
  | nil => cases b <;> simp [order]
  | cons x xs ih =>
    cases b with
    | nil => simp [order]
    | cons y ys =>
      rw [order, List.cons_lex_cons_iff]
      by_cases hxy : x < y
      · simp [hxy]
      · by_cases hyx : y < x
        · have hne : x ≠ y := (UInt8.ne_of_lt hyx).symm
          simp [hxy, hyx, hne]
        · have heq : x = y := UInt8.le_antisymm (UInt8.not_lt.mp hyx) (UInt8.not_lt.mp hxy)
          simp [heq, ih]

theorem order_gt_iff {a b : Bytes} : order a b = .gt ↔ List.Lex (· < ·) b a := by
  rw [← order_lt_iff, ← order_swap b a, Ordering.swap_eq_gt]

/-- Of three sequences none of which is above the next one, the first is below the last one unless
all are the same. -/
theorem order_then {a b c : Bytes} (hab : order a b ≠ .gt) (hbc : order b c ≠ .gt) :
    order a c = (order a b).then (order b c) := by
  cases hab' : order a b with
  | gt => exact absurd hab' hab
  | eq => rw [order_eq_iff.mp hab', Ordering.eq_then]
  | lt =>
    rw [Ordering.lt_then]
    cases hbc' : order b c with
    | gt => exact absurd hbc' hbc
    | eq => rw [← order_eq_iff.mp hbc', hab']
    | lt =>
      have habLex : a < b := order_lt_iff.mp hab'
      have hbcLex : b < c := order_lt_iff.mp hbc'
      exact order_lt_iff.mpr (List.lt_trans habLex hbcLex)

end Octets.Bytes

namespace Octets.Content

/-- The two byte sequences are the same. -/
def equals (a b : Bytes) : Bool := decide (a.length = b.length) && Bytes.order a b == .eq

/-- The order of the first bytes of two ranges, and where they are the same that of the numbers of
bytes of the ranges. -/
def orderPieces (source target : Bytes)
    (sourceStart sourceCount targetStart targetCount count : Nat) :
    Except Stop Ordering := do
  let a ← part source sourceStart (sourceStart + count)
  let b ← part target targetStart (targetStart + count)
  return (Bytes.order a b).then (compare sourceCount targetCount)

/-- The order of a range of the source and a range of the target. An empty range comes before
one that is not. -/
def compareRange (source target : Bytes) (targetStart targetStop sourceStart sourceStop : Operand) :
    Except Stop Ordering := do
  let ts ← Argument.positionOr targetStart "targetStart" maxLength 0
  let te ← Argument.positionOr targetStop "targetEnd" target.length target.length
  let ss ← Argument.positionOr sourceStart "sourceStart" maxLength 0
  let se ← Argument.positionOr sourceStop "sourceEnd" source.length source.length
  if se ≤ ss then return if te ≤ ts then .eq else .lt
  else if te ≤ ts then return .gt
  else do
    refuse (source.length < ss) (.outsideDomain "sourceStart")
    refuse (target.length < ts) (.outsideDomain "targetStart")
    let sourceCount ← difference se ss
    let targetCount ← difference te ts
    let rest ← difference source.length ss
    orderPieces source target ss sourceCount ts targetCount (min (min sourceCount targetCount) rest)

end Octets.Content
