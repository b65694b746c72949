import Octets.Content.Access
import Octets.Memory.Access
import Octets.Proofs.Outcome

/-!
# Runs of the accesses to the memory

What the actions of `Octets.Memory.Block` do in a store that holds the windows they work on, and
which bytes a store has after a part of a window was overwritten (`Store.eq_write_overwrite_iff`).
-/

namespace Octets

open Octets.Action (outcome commit)

variable {α : Type} {s : Store} {w : Window}

namespace Store

/-- A window of a store shows as many bytes as it is long. -/
theorem length_read (hw : s.Holds w) : (s.read w).length = w.length := by
  have hcap := hw.2
  unfold capacity at hcap
  simp only [read, Bytes.length_range]
  omega

@[simp] theorem run_fetch (s : Store) (id : Nat) : (fetch id).run s = .ok (s.block id) s := rfl

/-- To put new bytes at a place of a block is to write them into the window at that place. -/
theorem setBlock_overwrite (s : Store) (w : Window) (new : Bytes) :
    setBlock w.block ((s.block w.block).overwrite w.offset new) s = s.write w new := by
  unfold setBlock write
  congr 1
  -- Block by block: both sides differ from the store in the block of the window only.
  apply List.ext_getElem?
  intro i
  rw [List.getElem?_set, List.getElem?_modify]
  by_cases hi : w.block = i
  · subst hi
    by_cases hlt : w.block < s.blocks.length
    · simp [block, hlt]
    · simp [hlt]
  · simp [hi]

/-- To put back the bytes of a block changes nothing. -/
theorem setBlock_block (s : Store) (id : Nat) : setBlock id (s.block id) s = s := by
  unfold setBlock block
  congr 1
  apply List.ext_getElem?
  intro i
  rw [List.getElem?_set]
  by_cases hi : id = i
  · subst hi
    by_cases hlt : id < s.blocks.length
    · simp [hlt]
    · simp [hlt]
  · simp [hi]

/-- An action that replaces the bytes of a block, or stops and leaves them as they are. -/
theorem run_change {id : Nat} {p : Action Bytes α} {r : Except Stop (Bytes × α)}
    (hp : p.run (s.block id) = commit (s.block id) r) :
    (change id p).run s = s.settleBlock id r := by
  simp only [EStateM.run] at hp
  simp only [change, Action.on, EStateM.run, hp]
  cases r with
  | ok result => rfl
  | error stop => exact congrArg _ (s.setBlock_block id)

/-- An action that always replaces the bytes of a block. -/
theorem run_change_ok {id : Nat} {p : Action Bytes α} {a : α} {new : Bytes}
    (hp : p.run (s.block id) = .ok a new) :
    (change id p).run s = .ok a (setBlock id new s) :=
  have hcommit : p.run (s.block id) = commit (s.block id) (.ok (new, a)) := hp
  run_change hcommit

end Store

namespace Window

/-- The range of a window in its block. -/
theorem part_block (hw : s.Holds w) :
    part (s.block w.block) w.offset (w.offset + w.length) = .ok (s.read w) :=
  part_eq_ok (Nat.le_add_right _ _) hw.2

theorem run_load (hw : s.Holds w) : w.load.run s = .ok (s.read w) s := by
  simp [load, part_block hw]

/-- What follows a look at a window sees the bytes that it shows. -/
theorem run_load_bind (hw : s.Holds w) (k : Bytes → Action Store α) :
    (w.load >>= k).run s = (k (s.read w)).run s := by
  rw [EStateM.run_bind, run_load hw]

/-- An action that replaces the bytes of the window is an edit of the window. -/
theorem run_change {p : Action Bytes α} {r : Except Stop (Bytes × α)} (hw : s.Holds w)
    (hp : p.run (s.read w) = commit (s.read w) r) : (w.change p).run s = s.settle w r := by
  have hwithin := @Action.run_within_commit _ w.offset (w.offset + w.length) (s.block w.block) p
    (fun _ => r) hp
  rw [part_block hw, ok_bind] at hwithin
  -- In its block the window is a range, and the block changes where the range does.
  refine (Store.run_change hwithin).trans ?_
  cases r with
  | ok result => exact congrArg _ (Store.setBlock_overwrite s w result.1)
  | error stop => rfl

/-- An action that replaces the bytes of the window, and then an answer. -/
theorem run_change_return {p : Action Bytes Unit} {r : Except Stop Bytes} (hw : s.Holds w)
    (hp : p.run (s.read w) = commit (s.read w) (r.map (·, ()))) (a : α) :
    (w.change p >>= fun _ => pure a).run s = s.settle w (r >>= fun new => pure (new, a)) :=
  Store.run_settle_return (run_change hw hp) a

/-- Overwriting a range of a window, in the block of the window. -/
theorem setBlock_overwrite_place (ht : s.Holds target) {place : Nat} {new : Bytes}
    (h : place + new.length ≤ target.length) :
    Store.setBlock target.block
        ((s.block target.block).overwrite (target.offset + place) new) s =
      s.write target ((s.read target).overwrite place new) := by
  rw [← Store.setBlock_overwrite, Store.read,
    Bytes.overwrite_overwrite_range ht.2 (by omega)]

theorem run_loadPair {other : Window} (hw : s.Holds w) (ho : s.Holds other) :
    (w.loadPair other).run s = .ok (s.read w, s.read other) s := by
  unfold loadPair
  split
  · -- In one block both windows are ranges of the same bytes.
    rename_i hblock
    have hpart := part_block ho
    rw [← hblock] at hpart
    simp [part_block hw, hpart]
  · split <;> simp [run_load hw, run_load ho]

end Window

/-! ## Overwritten parts of windows -/

namespace Store

variable {t : Store}

/-- Two stores are the same where they have as many blocks and the same bytes in each. -/
theorem eq_of_blocks (hlength : t.blocks.length = s.blocks.length)
    (hbytes : ∀ id i : Nat, (t.block id)[i]? = (s.block id)[i]?) : t = s := by
  have hblocks : t.blocks = s.blocks := by
    refine List.ext_getElem hlength fun id ht hs => List.ext_getElem? fun i => ?_
    have h := hbytes id i
    simpa only [block, List.getElem?_eq_getElem ht, List.getElem?_eq_getElem hs, Option.getD_some]
      using h
  exact congrArg Store.mk hblocks

/-- The bytes of a block after a part of a window was overwritten: new ones in the part, and those
from before everywhere else. -/
theorem getElem?_write_overwrite (hw : s.Holds w) {start : Nat} {new : Bytes}
    (h : start + new.length ≤ w.length) (id i : Nat) :
    ((s.write w ((s.read w).overwrite start new)).block id)[i]? =
      if id = w.block ∧ w.offset + start ≤ i ∧ i < w.offset + start + new.length then
        new[i - (w.offset + start)]?
      else (s.block id)[i]? := by
  have hcap := hw.2
  unfold capacity at hcap
  -- Overwriting a part of a window is writing into a window of its own.
  have hwrite : s.write w ((s.read w).overwrite start new) =
      s.write ⟨w.block, w.offset + start, new.length⟩ new := by
    rw [← Window.setBlock_overwrite_place hw h, ← setBlock_overwrite]
  rw [hwrite, block_write]
  by_cases hid : id = w.block
  · subst hid
    have hroom : w.offset + start + new.length ≤ (s.block w.block).length := by omega
    rw [if_pos ⟨rfl, hw.1⟩, Bytes.getElem?_overwrite hroom]
    simp only [true_and]
  · rw [if_neg fun hsame => hid hsame.1.symm, if_neg fun hin => hid hin.1]

/-- The store after a part of a window was overwritten is the one with these bytes, of which each is
given by its distance from the start. No bytes overwrite nothing, wherever they are put. -/
theorem eq_write_overwrite_iff (hw : s.Holds w) {start count : Nat} {new : Bytes}
    {byte : Nat → Option UInt8} (hnew : new.length = count)
    (hplace : count ≠ 0 → start + count ≤ w.length) (hbyte : ∀ j < count, new[j]? = byte j) :
    t = s.write w ((s.read w).overwrite start new) ↔
      t.blocks.length = s.blocks.length ∧ ∀ id i : Nat, (t.block id)[i]? =
        if id = w.block ∧ w.offset + start ≤ i ∧ i < w.offset + start + count then
          byte (i - (w.offset + start))
        else (s.block id)[i]? := by
  subst hnew
  have hblocks : (s.write w ((s.read w).overwrite start new)).blocks.length = s.blocks.length :=
    List.length_modify ..
  have hwritten : ∀ id i : Nat, ((s.write w ((s.read w).overwrite start new)).block id)[i]? =
      if id = w.block ∧ w.offset + start ≤ i ∧ i < w.offset + start + new.length then
        byte (i - (w.offset + start))
      else (s.block id)[i]? := by
    intro id i
    by_cases hnone : new = []
    · rw [hnone, Bytes.overwrite_nil, write_read hw, if_neg (by rw [List.length_nil]; omega)]
    · rw [getElem?_write_overwrite hw (hplace (mt List.eq_nil_of_length_eq_zero hnone))]
      exact ite_congr rfl (fun hin => hbyte _ (by omega)) fun _ => rfl
  constructor
  · rintro rfl
    exact ⟨hblocks, hwritten⟩
  · intro ht
    obtain ⟨hlength, hsame⟩ := ht
    refine eq_of_blocks (hlength.trans hblocks.symm) fun id i => ?_
    rw [hsame, hwritten]

theorem eq_write_take_iff (hw : s.Holds w) {start n : Nat} {bytes : Bytes}
    (hn : n ≤ bytes.length) (h : start + n ≤ w.length) :
    t = s.write w ((s.read w).overwrite start (bytes.take n)) ↔
      t.blocks.length = s.blocks.length ∧ ∀ id i : Nat, (t.block id)[i]? =
        if id = w.block ∧ w.offset + start ≤ i ∧ i < w.offset + start + n then
          bytes[i - (w.offset + start)]?
        else (s.block id)[i]? := by
  have hbyte : ∀ j < n, (bytes.take n)[j]? = bytes[j]? := fun j hj => List.getElem?_take_of_lt hj
  exact eq_write_overwrite_iff hw (List.length_take_of_le hn) (fun _ => h) hbyte

end Store

/-! ## Single bytes -/

/-- The greatest index is only asked for where there is a byte. -/
theorem noByte_eq (length index : Nat) :
    (noByte length index : Except Stop α) = .error (.fault (Content.indexFault length index)) := by
  unfold noByte Content.indexFault
  split
  · rfl
  · rw [difference_eq_ok (by omega)]
    rfl

namespace Store

theorem run_readByte (s : Store) (id index : Nat) :
    (readByte id index).run s = outcome (liftM (Content.byteAt (s.block id) index)) s := by
  simp only [readByte, Content.byteAt, EStateM.run_bind, run_fetch]
  cases (s.block id)[index]? with
  | some b => rfl
  | none => rw [noByte_eq]; rfl

theorem run_writeByte (s : Store) (id index : Nat) (b : UInt8) :
    (writeByte id index b).run s =
      s.settleBlock id ((·, ()) <$> liftM (Content.setByte (s.block id) index b)) := by
  refine run_change ?_
  simp only [EStateM.run_bind, EStateM.run_get, Content.setByte]
  by_cases h : index < (s.block id).length
  · rw [if_pos h, if_pos h]
    rfl
  · rw [if_neg h, if_neg h, noByte_eq]
    rfl

end Store

namespace Window

/-- The byte of a window is the byte of the block that stands as far after the offset. -/
theorem getElem?_read (s : Store) {index : Nat} (h : index < w.length) :
    (s.read w)[index]? = (s.block w.block)[w.offset + index]? :=
  Bytes.getElem?_range _ (by omega)

theorem run_byteAt (index : Nat) (hw : s.Holds w) :
    (w.byteAt index).run s = outcome (liftM (Content.byteAt (s.read w) index)) s := by
  unfold byteAt
  by_cases h : w.length ≤ index
  · rw [if_pos h, noByte_eq, Content.byteAt,
      List.getElem?_eq_none (by rwa [Store.length_read hw]), Store.length_read hw]
    rfl
  · have hcap := hw.2
    unfold Store.capacity at hcap
    have hlt : w.offset + index < (s.block w.block).length := by omega
    rw [if_neg h, Store.run_readByte, Content.byteAt, Content.byteAt, getElem?_read s (by omega),
      List.getElem?_eq_getElem hlt]

theorem run_setByte (index : Nat) (b : UInt8) (hw : s.Holds w) :
    (w.setByte index b).run s =
      s.settle w ((·, ()) <$> liftM (Content.setByte (s.read w) index b)) := by
  unfold setByte
  by_cases h : w.length ≤ index
  · rw [if_pos h, noByte_eq, Content.setByte, if_neg (by rw [Store.length_read hw]; omega),
      Store.length_read hw]
    rfl
  · have hcap := hw.2
    unfold Store.capacity at hcap
    have hlt : w.offset + index < (s.block w.block).length := by omega
    rw [if_neg h, Store.run_writeByte, Content.setByte, if_pos hlt, Content.setByte,
      if_pos (by rw [Store.length_read hw]; omega)]
    -- A byte that is set is an overwritten range of one byte, in the window as in the block.
    refine congrArg (EStateM.Result.ok ()) ?_
    rw [← Bytes.overwrite_singleton hlt, ← Bytes.overwrite_singleton (by
      rw [Store.length_read hw]; omega)]
    exact setBlock_overwrite_place hw (by rw [List.length_singleton]; omega)

end Window

namespace Value

/-- An argument is seen with the bytes that its buffer shows. -/
theorem run_observe {v : Value Window} (hv : ∀ w ∈ v.buffers, s.Holds w) :
    v.observe.run s = .ok (v.map s.read) s := by
  cases v with
  | buffer w => simp [observe, map, Window.run_load (hv w (by simp [buffers]))]
  | _ => rfl

/-- A check of an argument sees the bytes that its buffer shows. -/
theorem run_ask {v : Value Window} (hv : ∀ w ∈ v.buffers, s.Holds w)
    (check : Operand → Except Fault α) :
    (v.ask check).run s = outcome (liftM (check (v.map s.read))) s := by
  simp [ask, run_observe hv]

end Value

end Octets
