import Octets.Memory.Copy
import Octets.Proofs.Growth

/-!
# Runs of copies

Copying between windows is what `Octets.Content.Copy` says about the bytes that they show, whether
or not they share a block and overlap.
-/

namespace Octets

open Octets.Action (outcome run_bind_outcome)

namespace Action

theorem run_move {content : Bytes} {start stop target : Nat} (hle : start ≤ stop)
    (hlen : stop ≤ content.length) (hfit : target + (stop - start) ≤ content.length) :
    (move start stop target).run content =
      .ok () (content.overwrite target (content.range start stop)) := by
  have hpart : part content start stop = .ok (content.range start stop) := part_eq_ok hle hlen
  have hnew : (content.range start stop).length = target + (stop - start) - target := by
    rw [Bytes.length_range]
    omega
  simp only [move, EStateM.run_bind, EStateM.run_get, run_liftM, hpart, outcome_ok,
    replaced_eq_ok (Nat.le_add_right _ _) hfit hnew, EStateM.run_set]

end Action

namespace Content

/-- What is copied is a range of the source that fits. -/
theorem length_copied (source target : Bytes) (targetStart sourceStart sourceStop : Nat) :
    (copyRange source target targetStart sourceStart sourceStop).2 =
      min (min sourceStop source.length - sourceStart) (target.length - targetStart) := by
  simp only [copyRange, List.length_take, Bytes.length_range]
  omega

/-- Where nothing is to be copied, or nothing fits, nothing changes. -/
theorem copyRange_eq_self {source target : Bytes} {targetStart sourceStart sourceStop : Nat}
    (h : min sourceStop source.length ≤ sourceStart ∨ target.length ≤ targetStart) :
    copyRange source target targetStart sourceStart sourceStop = (target, 0) := by
  have hnew : (source.range sourceStart sourceStop).take (target.length - targetStart) = [] := by
    apply List.eq_nil_of_length_eq_zero
    rw [List.length_take, Bytes.length_range]
    omega
  simp [copyRange, hnew]

/-- Where something is copied, it overwrites a range of the target. -/
theorem copyRange_eq_overwrite {source target : Bytes} {targetStart sourceStart sourceStop : Nat}
    (h : targetStart < target.length) :
    (copyRange source target targetStart sourceStart sourceStop).1 =
      target.overwrite targetStart
        (source.range sourceStart (min sourceStop (sourceStart + (target.length - targetStart)))) :=
    by
  simp only [copyRange, if_pos h, Bytes.take_range]

end Content

namespace Window

open Store (length_read run_bind_settle)
open Value (run_ask)

variable {s : Store} {w target : Window}

/-- A range of the bytes of a window, in the block of the window. -/
theorem range_block (s : Store) (w : Window) {first count : Nat} (h : first + count ≤ w.length) :
    (s.block w.block).range (w.offset + first) (w.offset + first + count) =
      (s.read w).range first (first + count) := by
  rw [Store.read, Bytes.range_range]
  congr 1
  omega

/-- Bytes are transferred as if they were all taken out before any is put in its place, in one
block as well as from one to another. -/
theorem run_transfer {sourceStart targetStart count : Nat} (hw : s.Holds w) (ht : s.Holds target)
    (hsource : sourceStart + count ≤ w.length) (hplace : targetStart + count ≤ target.length) :
    (w.transfer target sourceStart targetStart count).run s =
      .ok () (s.write target ((s.read target).overwrite targetStart
        ((s.read w).range sourceStart (sourceStart + count)))) := by
  have hwcap := hw.2
  have htcap := ht.2
  unfold Store.capacity at hwcap htcap
  have hlen : ((s.read w).range sourceStart (sourceStart + count)).length = count := by
    rw [Bytes.length_range, length_read hw]
    omega
  have hchunk := range_block s w hsource
  rw [← setBlock_overwrite_place ht (by omega), ← hchunk]
  rw [← hchunk] at hlen
  unfold transfer
  split
  · -- In one block the bytes are moved, and a move reads all of them before it writes.
    rename_i hblock
    rw [← hblock] at htcap ⊢
    exact Store.run_change_ok (Action.run_move (Nat.le_add_right _ _) (by omega) (by omega))
  · -- Between two blocks they are taken out of the one and put into the other.
    have hpart : part (s.block w.block) (w.offset + sourceStart) (w.offset + sourceStart + count) =
        .ok ((s.block w.block).range (w.offset + sourceStart) (w.offset + sourceStart + count)) :=
      part_eq_ok (Nat.le_add_right _ _) (by omega)
    simp only [EStateM.run_bind, Store.run_fetch, Action.run_liftM, hpart, Action.outcome_ok]
    refine Store.run_change_ok ?_
    rw [Action.run_within_assign (by omega),
      replaced_eq_ok (Nat.le_add_right _ _) (by omega) (by omega)]
    rfl

theorem run_copyInto (targetStart sourceStart sourceStop : Nat) (hw : s.Holds w)
    (ht : s.Holds target) :
    (w.copyInto target targetStart sourceStart sourceStop).run s =
      s.settle target
        (.ok (Content.copyRange (s.read w) (s.read target) targetStart sourceStart
          sourceStop)) := by
  unfold copyInto
  by_cases hnone : min sourceStop w.length ≤ sourceStart ∨ target.length ≤ targetStart
  · rw [if_pos hnone, Content.copyRange_eq_self (by rwa [length_read hw, length_read ht])]
    simp [Store.write_read ht]
  · -- What is copied is what is asked for, as far as it is there and fits.
    obtain ⟨count, hcount⟩ : ∃ count, count =
      min (min sourceStop w.length - sourceStart) (target.length - targetStart) := ⟨_, rfl⟩
    have hcopied : Content.copyRange (s.read w) (s.read target) targetStart sourceStart sourceStop =
        ((s.read target).overwrite targetStart
          ((s.read w).range sourceStart (sourceStart + count)), count) := by
      refine Prod.ext ?_ ?_
      · rw [Content.copyRange_eq_overwrite (by rw [length_read ht]; omega), length_read ht]
        congr 1
        unfold Bytes.range
        rw [List.take_eq_take_iff, List.length_drop, length_read hw]
        omega
      · rw [Content.length_copied, length_read hw, length_read ht, hcount]
    rw [if_neg hnone, difference_eq_ok (by omega), difference_eq_ok (by omega), hcopied]
    simp only [EStateM.run_bind, Action.run_liftM, Action.outcome_ok, ← hcount]
    rw [run_transfer hw ht (by omega) (by omega)]
    rfl

theorem run_copy {targetStart sourceStart sourceStop : Value Window} (hw : s.Holds w)
    (ht : s.Holds target) (hts : ∀ v ∈ targetStart.buffers, s.Holds v)
    (hss : ∀ v ∈ sourceStart.buffers, s.Holds v) (hse : ∀ v ∈ sourceStop.buffers, s.Holds v) :
    (w.copy target targetStart sourceStart sourceStop).run s =
      s.settle target (liftM (Content.copy (s.read w) (s.read target) (targetStart.map s.read)
        (sourceStart.map s.read) (sourceStop.map s.read))) := by
  simp only [copy, Content.copy, liftM_bind, length_read hw, length_read ht]
  refine run_bind_settle (run_ask hts _) fun ts _ => ?_
  refine run_bind_settle rfl fun _ _ => ?_
  refine run_bind_settle (run_ask hss _) fun ss _ => ?_
  refine run_bind_settle rfl fun _ _ => ?_
  refine run_bind_settle (run_ask hse _) fun se _ => ?_
  refine run_bind_settle rfl fun _ _ => ?_
  split
  · simp [Store.write_read ht]
  · exact run_copyInto _ _ _ hw ht

/-! ## Joining -/

/-- The window onto a new block depends on the number of its bytes only. -/
theorem adopt_congr (s : Store) {a b : Bytes} (h : a.length = b.length) :
    (s.adopt a).1 = (s.adopt b).1 := by
  simp [Store.adopt, h]

/-- Copying all of a source behind what is done keeps what is done. -/
theorem copyRange_append (done rest source : Bytes) :
    Content.copyRange source (done ++ rest) done.length 0 source.length =
      (done ++ source.take rest.length ++ rest.drop (source.take rest.length).length,
        (source.take rest.length).length) := by
  have hrange : source.range 0 source.length = source := by simp [Bytes.range]
  have hroom : (done ++ rest).length - done.length = rest.length := by simp
  simp only [Content.copyRange, hrange, hroom]
  by_cases hlt : done.length < (done ++ rest).length
  · rw [if_pos hlt, Bytes.overwrite, List.take_left, ← List.drop_drop, List.drop_left]
  · have hrest : rest = [] := by
      apply List.eq_nil_of_length_eq_zero
      rw [List.length_append] at hlt
      omega
    subst hrest
    simp

theorem take_append_piece (a b rest : Bytes) :
    a.take rest.length ++ b.take (rest.drop (a.take rest.length).length).length =
      (a ++ b).take rest.length := by
  rw [List.take_append, List.length_drop, List.length_take]
  congr 1
  rw [List.take_eq_take_iff]
  omega

theorem drop_append_piece (a b rest : Bytes) :
    (rest.drop (a.take rest.length).length).drop b.length = rest.drop (a ++ b).length := by
  rw [List.drop_drop, List.length_append, List.length_take]
  by_cases h : a.length ≤ rest.length
  · rw [Nat.min_eq_right h]
  · rw [List.drop_eq_nil_of_le (by omega), List.drop_eq_nil_of_le (by omega)]

/-- Copying windows one after the other into a new block, of which the beginning is done, puts
their bytes after the beginning as far as there is room. -/
theorem run_copyAll {parts : List Window} (hparts : ∀ p ∈ parts, s.Holds p) (done rest : Bytes) :
    ((s.adopt (done ++ rest)).1.copyAll parts done.length).run (s.adopt (done ++ rest)).2 =
      .ok () (s.adopt (done ++ (parts.map s.read).flatten.take rest.length ++
        rest.drop (parts.map s.read).flatten.length)).2 := by
  induction parts generalizing done rest with
  | nil => simp [copyAll]
  | cons p parts ih =>
    have hp : s.Holds p := hparts p (by simp)
    simp only [copyAll, List.map_cons, List.flatten_cons]
    by_cases hfull : (s.adopt (done ++ rest)).1.length ≤ done.length
    · have hrest : rest = [] := by
        apply List.eq_nil_of_length_eq_zero
        simp only [Store.adopt, List.length_append] at hfull
        omega
      -- Nothing fits any more, and nothing would be taken of the other windows.
      subst hrest
      rw [if_pos hfull]
      simp
    · -- The windows lie in the blocks that were there before, so the new block does not change what
      -- they show, and the induction goes on with the first window as a part of what is done.
      rw [if_neg hfull, EStateM.run_bind, run_copyInto _ _ _ ((Store.Extends.adopt s _).holds hp)
        (Store.holds_adopt s _), Store.read_adopt hp.1, Store.read_adopt_self, ← length_read hp,
        copyRange_append done rest (s.read p), Store.settle_ok]
      have hnew : (done ++ (s.read p).take rest.length ++
          rest.drop ((s.read p).take rest.length).length).length = (done ++ rest).length := by
        simp only [List.length_append, List.length_take, List.length_drop]
        omega
      have hnext := ih (fun q hq => hparts q (by simp [hq])) (done ++ (s.read p).take rest.length)
        (rest.drop ((s.read p).take rest.length).length)
      rw [adopt_congr s hnew, List.length_append] at hnext
      rw [Store.write_adopt s hnew]
      refine hnext.trans ?_
      rw [← take_append_piece (s.read p), ← drop_append_piece (s.read p)]
      simp only [List.append_assoc]

/-- Windows are as long as what they show. -/
theorem map_length_read {parts : List Window} (hparts : ∀ p ∈ parts, s.Holds p) :
    (parts.map s.read).map List.length = parts.map Window.length := by
  rw [List.map_map]
  exact List.map_congr_left fun p hp => length_read (hparts p hp)

/-- A new block with windows one after the other. -/
theorem run_concat {parts : List Window} {totalLength : Value Window}
    (hparts : ∀ p ∈ parts, s.Holds p) (ht : ∀ v ∈ totalLength.buffers, s.Holds v) :
    (concat parts totalLength).run s =
      s.added (liftM (Content.concat (parts.map s.read) (totalLength.map s.read))) := by
  cases parts with
  | nil => rfl
  | cons p parts =>
    simp only [concat, List.map_cons, Content.concat, liftM_bind]
    rw [← List.map_cons, ← List.map_cons, ← map_length_read hparts]
    refine Store.run_bind_added (run_ask ht _) fun length _ => ?_
    unfold Store.allocate
    cases hsize : Argument.blockSize length with
    | error f => rfl
    | ok _ =>
      -- At first nothing is done; what no window reaches stays zero.
      have hall := run_copyAll hparts [] (List.replicate length 0)
      rw [List.nil_append, List.nil_append, List.length_nil, List.length_replicate,
        List.drop_replicate] at hall
      simp only [EStateM.run_bind, Action.run_liftM_check, liftM_ok, Action.outcome_ok,
        Store.wrap, EStateM.run_modifyGet, hall, ok_bind]
      refine congrArg (EStateM.Result.ok · _) (adopt_congr s ?_)
      simp only [List.length_append, List.length_take, List.length_replicate]
      omega

end Window

end Octets
