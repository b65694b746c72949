import Octets.Memory.Fill
import Octets.Memory.Swap
import Octets.Proofs.Access

/-!
# Runs of fills and swaps

Filling a window and swapping its bytes is what `Octets.Content.Fill` and `Octets.Content.Swap` say
about the bytes that the window shows.
-/

namespace Octets

open Octets.Action (outcome)

namespace Content

variable {ω ω' : Type}

/-! ## The place of a fill -/

namespace Span

/-- The place with other buffers in its arguments. -/
def map (f : ω → ω') (place : Span ω) : Span ω' where
  offset := place.offset.map f
  stop := place.stop.map f
  encoding := place.encoding.map f

/-- The buffers among the arguments that give the place. -/
def buffers (place : Span ω) : List ω :=
  place.offset.buffers ++ place.stop.buffers ++ place.encoding.buffers

end Span

theorem span_map (f : ω → ω') (value offset stop encoding : Value ω) :
    (span value offset stop encoding).map f =
      span (value.map f) (offset.map f) (stop.map f) (encoding.map f) := by
  simp only [span, textSpan, Value.isUndefined_map, Value.isText_map]
  repeat' split
  all_goals rfl

/-- The arguments that give the place are among those of the fill. -/
theorem mem_buffers_span {value offset stop encoding : Value ω} {w : ω}
    (h : w ∈ (span value offset stop encoding).buffers) :
    w ∈ offset.buffers ++ stop.buffers ++ encoding.buffers := by
  simp only [span, textSpan, Span.buffers] at h
  repeat' split at h
  all_goals simp_all [Value.buffers]
  all_goals grind

/-! ## Patterns -/

/-- A single byte repeated. -/
theorem repeated_single (b : UInt8) (count : Nat) :
    repeated [b] count = List.replicate count b := by
  apply List.ext_getElem?
  intro i
  by_cases hi : i < count
  · rw [getElem?_repeated _ hi]
    simp [hi, Nat.mod_one]
  · rw [List.getElem?_eq_none (by simpa using hi), List.getElem?_eq_none (by simpa using hi)]

end Content

namespace Window

open Store (length_read run_bind_settle)
open Octets.Action (run_bind_outcome)
open Value (run_ask)

variable {s : Store} {w : Window} {value offset stop encoding : Value Window}

theorem run_pattern (hv : ∀ v ∈ value.buffers, s.Holds v)
    (he : ∀ v ∈ encoding.buffers, s.Holds v) :
    (pattern value encoding).run s =
      outcome (liftM (Content.pattern (value.map s.read) (encoding.map s.read))) s := by
  cases value with
  | text text =>
    simp only [pattern, Content.pattern, Value.map, liftM_bind]
    exact run_bind_outcome (run_ask he _) fun e _ => rfl
  | bytes content => rfl
  | buffer source =>
    have hsource : s.Holds source := hv source (by simp [Value.buffers])
    simp only [pattern, run_load_bind hsource]
    rfl
  | number x => rfl
  | undefined => rfl
  | null => rfl
  | bool b => rfl
  | bigInteger n => rfl

theorem run_fillRange (length : Nat) (ho : ∀ v ∈ offset.buffers, s.Holds v)
    (hstop : ∀ v ∈ stop.buffers, s.Holds v) :
    (fillRange length offset stop).run s =
      outcome (liftM (Content.fillRange length (offset.map s.read) (stop.map s.read))) s := by
  unfold fillRange Content.fillRange
  rw [Value.isUndefined_map]
  split
  · rfl
  · simp only [liftM_bind]
    refine run_bind_outcome (run_ask ho _) fun first _ => ?_
    exact run_bind_outcome (run_ask hstop _) fun last _ => rfl

theorem run_fill (hw : s.Holds w) (hv : ∀ v ∈ value.buffers, s.Holds v)
    (ho : ∀ v ∈ offset.buffers, s.Holds v) (hstop : ∀ v ∈ stop.buffers, s.Holds v)
    (he : ∀ v ∈ encoding.buffers, s.Holds v) :
    (w.fill value offset stop encoding).run s =
      s.settle w ((·, ()) <$> Content.fill (s.read w) (value.map s.read) (offset.map s.read)
        (stop.map s.read) (encoding.map s.read)) := by
  have hplace : ∀ v ∈ (Content.span value offset stop encoding).buffers, s.Holds v := by
    intro v hmem
    have hargument := Content.mem_buffers_span hmem
    simp only [List.mem_append] at hargument
    rcases hargument with (hargument | hargument) | hargument
    · exact ho v hargument
    · exact hstop v hargument
    · exact he v hargument
  simp only [Content.Span.buffers, List.mem_append, or_imp, forall_and] at hplace
  obtain ⟨⟨hfirst, hlast⟩, hencoding⟩ := hplace
  simp only [fill, Content.fill, map_bind, ← Content.span_map, Content.Span.map, length_read hw]
  refine run_bind_settle (run_pattern hv hencoding) fun p _ => ?_
  refine run_bind_settle (run_fillRange w.length hfirst hlast) fun range _ => ?_
  cases range with
  | none =>
    -- Nothing is filled, which is to write what is there.
    show EStateM.Result.ok () s = .ok () (s.write w (s.read w))
    rw [Store.write_read hw]
  | some range =>
    obtain ⟨first, last⟩ := range
    cases p with
    | single b =>
      -- A pattern of one byte is not empty, and the check for it is not made.
      rw [map_bind, refuse_eq_ok (by simp [Content.Pattern.bytes]), liftM_ok, ok_bind]
      refine run_change hw (Action.run_within_modify (fun slice hslice => ?_) (by simp))
      rw [hslice, Content.Pattern.bytes, Content.repeated_single]
    | cycle bytes =>
      rw [map_bind]
      refine run_bind_settle (run_ask hv _) fun _ _ => ?_
      refine run_change hw (Action.run_within_modify (fun slice hslice => ?_) (by simp))
      rw [hslice]
      rfl

/-- Swapping the bytes of a window never leaves the window. -/
theorem run_swap (unit : SwapUnit) (hw : s.Holds w) :
    (w.swap unit).run s = s.settle w ((·, ()) <$> liftM (Content.swap (s.read w) unit)) := by
  unfold swap Content.swap
  rw [length_read hw]
  by_cases hunit : w.length % unit.size = 0
  · rw [if_pos hunit, EStateM.run_bind, Action.run_liftM_check, refuse_eq_ok (by simpa using hunit)]
    exact run_change hw rfl
  · rw [if_neg hunit, EStateM.run_bind, Action.run_liftM_check, refuse_eq_error hunit]
    rfl

end Window

end Octets
