import Octets.Argument

/-!
# The store

A store is a sequence of blocks of bytes. A block is never removed and never changes its size. A
buffer is a *window*: a block, an offset and a length. Windows share the bytes of their block, so
what is written through one of them shows in every other one that overlaps it.

* `Store.read` — the bytes that a window shows;
* `Store.write` — the store with other bytes in a window;
* `Store.adopt` — the store with a new block.
-/

namespace Octets

/-- A part of a block. -/
structure Window where
  block : Nat
  offset : Nat
  length : Nat
deriving DecidableEq

/-- Blocks of bytes, by number. -/
structure Store where
  blocks : List Bytes
deriving DecidableEq

namespace Window

/-- The part of a window between two positions, which count from the end where they are negative
and are moved into the window. -/
def slice (w : Window) (start stop : Int) : Window :=
  let first := Argument.clampIndex w.length start
  let last := Argument.clampIndex w.length stop
  ⟨w.block, w.offset + first, last - first⟩

/-- The two windows share their block. -/
def sharesBlock (a b : Window) : Bool := decide (a.block = b.block)

/-- A part of a window lies inside it. -/
theorem slice_within (w : Window) (start stop : Int) :
    w.offset ≤ (w.slice start stop).offset ∧
      (w.slice start stop).offset + (w.slice start stop).length ≤ w.offset + w.length := by
  have hfirst := Argument.clampIndex_le w.length start
  have hlast := Argument.clampIndex_le w.length stop
  simp only [slice]
  omega

end Window

namespace Store

/-- A store without blocks. -/
def empty : Store := ⟨[]⟩

/-- The bytes of a block. -/
def block (s : Store) (id : Nat) : Bytes := s.blocks[id]?.getD []

/-- The number of bytes of a block. -/
def capacity (s : Store) (id : Nat) : Nat := (s.block id).length

/-- The window lies in a block of the store. -/
def Holds (s : Store) (w : Window) : Prop :=
  w.block < s.blocks.length ∧ w.offset + w.length ≤ s.capacity w.block

instance (s : Store) (w : Window) : Decidable (s.Holds w) := inferInstanceAs (Decidable (_ ∧ _))

/-- The bytes that a window shows. -/
def read (s : Store) (w : Window) : Bytes :=
  (s.block w.block).range w.offset (w.offset + w.length)

/-- The store with other bytes in a window. -/
def write (s : Store) (w : Window) (new : Bytes) : Store :=
  ⟨s.blocks.modify w.block fun content => content.overwrite w.offset new⟩

/-! ## Blocks and windows -/

/-- The window onto a whole block. -/
def whole (s : Store) (id : Nat) : Window := ⟨id, 0, s.capacity id⟩

/-- A new block with the given bytes, and the window onto it. -/
def adopt (s : Store) (content : Bytes) : Window × Store :=
  (⟨s.blocks.length, 0, content.length⟩, ⟨s.blocks ++ [content]⟩)

/-- The description of a window. -/
def shown (s : Store) (w : Window) : String :=
  "View \x7b offset: " ++ toString w.offset ++ ", length: " ++ toString w.length ++
    ", capacity: " ++ toString (s.capacity w.block) ++ " \x7d"

/-! ## Reading and writing -/

theorem block_write (s : Store) (w : Window) (new : Bytes) (id : Nat) :
    (s.write w new).block id =
      if w.block = id ∧ id < s.blocks.length then (s.block id).overwrite w.offset new
      else s.block id := by
  simp only [write, block, List.getElem?_modify]
  by_cases hid : w.block = id
  · subst hid
    by_cases hlt : w.block < s.blocks.length
    · simp [hlt]
    · simp [hlt]
  · simp [hid]

/-- Writing does not change the size of any block. -/
theorem capacity_write {s : Store} {w : Window} {new : Bytes} (hw : s.Holds w)
    (hnew : new.length = w.length) (id : Nat) : (s.write w new).capacity id = s.capacity id := by
  unfold capacity
  rw [block_write]
  split
  · rename_i h
    obtain ⟨rfl, _⟩ := h
    have := hw.2
    unfold capacity at this
    exact Bytes.length_overwrite (by omega)
  · rfl

/-- Writing to one block leaves the others. -/
theorem read_write_of_ne {s : Store} {w v : Window} {new : Bytes} (h : w.block ≠ v.block) :
    (s.write w new).read v = s.read v := by
  unfold read
  rw [block_write, if_neg (by simp [h])]

/-- A window shows what was written into it. -/
theorem read_write_self {s : Store} {w : Window} {new : Bytes} (hw : s.Holds w)
    (hnew : new.length = w.length) : (s.write w new).read w = new := by
  have hcap := hw.2
  unfold capacity at hcap
  unfold read
  rw [block_write, if_pos ⟨rfl, hw.1⟩]
  unfold Bytes.range Bytes.overwrite
  have hlen : ((s.block w.block).take w.offset).length = w.offset := by
    simp only [List.length_take]; omega
  rw [List.append_assoc, List.drop_append_of_le_length (by omega),
    List.drop_of_length_le (by omega), List.nil_append,
    List.take_append_of_le_length (by omega), List.take_of_length_le (by omega)]

/-- Writing back what a window shows changes nothing. -/
theorem write_read {s : Store} {w : Window} (hw : s.Holds w) : s.write w (s.read w) = s := by
  have hcap := hw.2
  unfold capacity at hcap
  have hget : s.blocks[w.block]? = some (s.block w.block) := by simp [block, hw.1]
  have hblocks : (s.write w (s.read w)).blocks = s.blocks := by
    apply List.ext_getElem?
    intro i
    simp only [write, List.getElem?_modify]
    by_cases hi : w.block = i
    · subst hi
      simp only [hget, if_true]
      exact congrArg some (Bytes.overwrite_range hcap (Nat.le_add_right _ _))
    · simp [hi]
  exact congrArg Store.mk hblocks

/-- Writing into a window again leaves nothing of what was written before. -/
theorem write_write {s : Store} {w : Window} {first second : Bytes} (hw : s.Holds w)
    (hfirst : first.length = w.length) (hsecond : second.length = w.length) :
    (s.write w first).write w second = s.write w second := by
  have hcap := hw.2
  unfold capacity at hcap
  have hget : s.blocks[w.block]? = some (s.block w.block) := by simp [block, hw.1]
  refine congrArg Store.mk (List.ext_getElem? fun i => ?_)
  simp only [write, List.getElem?_modify]
  by_cases hi : w.block = i
  · subst hi
    simp only [hget, if_true]
    exact congrArg some (Bytes.overwrite_overwrite_self (by omega) (by omega))
  · simp [hi]

/-- A new block shows the bytes that it was made with. -/
@[simp] theorem read_adopt_self (s : Store) (content : Bytes) :
    (s.adopt content).2.read (s.adopt content).1 = content := by
  simp [adopt, read, block, Bytes.range]

/-- Writing all bytes of a new block is making the block with them. -/
theorem write_adopt (s : Store) {content new : Bytes} (h : new.length = content.length) :
    (s.adopt content).2.write (s.adopt content).1 new = (s.adopt new).2 := by
  simp only [adopt, write, List.modify_eq_take_drop, List.take_left, List.drop_left]
  simp [Bytes.overwrite, h]

/-- A new block shows in no earlier window. -/
theorem read_adopt {s : Store} {w : Window} (h : w.block < s.blocks.length) (content : Bytes) :
    (s.adopt content).2.read w = s.read w := by
  simp [adopt, read, block, List.getElem?_append_left h]

end Store

end Octets
