import Octets.Proofs.Session

/-!
# What an edit changes

An edit changes the bytes of its window, and what other windows show of them; everything else stays
as it is. A window that overlaps the edited one shows the new bytes where it does, at the distance
of the two offsets. Parts of a buffer share its block, and new buffers share a block with no buffer
that was there before.
-/

namespace Octets

variable {s : Store} {v w : Window}

/-! ## Bytes of other windows -/

/-- The byte of a window after another one was written: a new byte where the place of the byte in
the block is one of the written window, the old one elsewhere. -/
theorem Store.getElem?_read_write {new : Bytes} (hv : s.Holds v) (hnew : new.length = v.length)
    (hw : s.Holds w) {j : Nat} (hj : j < w.length) :
    ((s.write v new).read w)[j]? =
      if w.block = v.block ∧ v.offset ≤ w.offset + j ∧ w.offset + j - v.offset < v.length then
        new[w.offset + j - v.offset]?
      else (s.read w)[j]? := by
  have hcap := hv.2
  unfold capacity at hcap
  -- Both windows are ranges of blocks, and the place of the byte in its block decides.
  rw [Window.getElem?_read _ hj, Window.getElem?_read _ hj, block_write]
  by_cases hblock : v.block = w.block
  · rw [if_pos ⟨hblock, hw.1⟩, ← hblock, Bytes.getElem?_overwrite (by omega)]
    by_cases hin : v.offset ≤ w.offset + j ∧ w.offset + j - v.offset < v.length
    · rw [if_pos (by omega), if_pos ⟨rfl, hin⟩]
    · rw [if_neg (by omega), if_neg fun h => hin h.2]
  · rw [if_neg fun h => hblock h.1, if_neg fun h => hblock h.1.symm]

namespace Session

variable {s t : Session}

/-! ## Edits of a session -/

/-- What a successful edit has done: its names stand for windows, and the bytes that it gives are
in the window that it works on. -/
theorem step_edit_eq_ok (hs : s.Wf) {on : Name} {extent : Extent} {e : Edit Name} {answer : Answer}
    (h : s.step (.edit on extent e) = (.ok answer, t)) :
    ∃ v e' new reply, s.extent on extent = .ok v ∧ s.store.Holds v ∧
      e.mapM? s.window? = some e' ∧
      (e'.map s.store.read).apply (s.store.read v) = .ok (new, reply) ∧
      answer = .reply reply ∧ t = { s with store := s.store.write v new } := by
  have hextent := resolves_extent hs on extent
  cases hv : s.extent on extent with
  | error failure => simp [step, edit, hv, respond, carryOut, Except.map] at h
  | ok v =>
    rw [hv] at hextent
    have hheld : s.store.Holds v := hextent
    cases he : e.mapM? s.window? with
    | none => simp [step, edit, hv, he, respond, carryOut, Except.map] at h
    | some e' =>
      have hrun := e'.run_perform hheld (Edit.of_mapM? hs.held he)
      cases happly : (e'.map s.store.read).apply (s.store.read v) with
      | error stop =>
        rw [happly, Store.settle_error] at hrun
        simp [step, edit, hv, he, respond, carryOut, hrun, Except.map] at h
      | ok result =>
        obtain ⟨new, reply⟩ := result
        rw [happly, Store.settle_ok] at hrun
        simp [step, edit, hv, he, respond, carryOut, hrun, Except.map] at h
        exact ⟨v, e', new, reply, rfl, hheld, rfl, happly, h.1.symm, h.2.symm⟩

/-- A buffer that is answered is what the maker gives. -/
theorem make_eq_ok {m : Maker} {name : Option Name} {v : Window}
    (h : s.step (.make m name) = (.ok (.buffer v), t)) : (s.make m).1 = .ok v := by
  cases hmake : s.make m with
  | mk result u =>
    cases result with
    | ok w =>
      rw [step_make_ok hmake] at h
      cases h
      rfl
    | error failure =>
      rw [step_make_error hmake] at h
      cases h

/-- In a session from nothing, a successful edit puts the new bytes into the window that it works
on, and every live buffer shows them where it overlaps this window, and what it showed before
elsewhere. A part of a buffer lies in the block of the buffer; a buffer with a block of its own
shares it with no live buffer. -/
theorem frame {commands : List Command} {answers : List (Except Failure Answer)}
    (h : empty.run commands = (answers, s)) :
    (∀ on extent e answer t, s.step (.edit on extent e) = (.ok answer, t) →
      ∃ v e' new reply, s.extent on extent = .ok v ∧ e.mapM? s.window? = some e' ∧
        (e'.map s.store.read).apply (s.store.read v) = .ok (new, reply) ∧
        t.store.read v = new ∧
        ∀ w, Live answers s w → ∀ j < w.length,
          (t.store.read w)[j]? =
            if w.block = v.block ∧ v.offset ≤ w.offset + j ∧ w.offset + j - v.offset < v.length then
              new[w.offset + j - v.offset]?
            else (s.store.read w)[j]?) ∧
    ∀ m name v t, s.step (.make m name) = (.ok (.buffer v), t) →
      (∀ source, m.source? = some source →
        ∃ w, s.window? source = some w ∧ v.block = w.block) ∧
      (m.makesBlock = true → ∀ w, Live answers s w → v.block ≠ w.block) := by
  have hkeeps := run_keeps wf_empty commands
  rw [h] at hkeeps
  constructor
  · intro on extent e answer t hstep
    obtain ⟨v, e', new, reply, hv, hheld, he, happly, _, rfl⟩ := step_edit_eq_ok hkeeps.wf hstep
    have hnew : new.length = v.length := by
      rw [Edit.length_apply happly, Store.length_read hheld]
    refine ⟨v, e', new, reply, hv, he, happly, Store.read_write_self hheld hnew, ?_⟩
    intro w hw j hj
    exact Store.getElem?_read_write hheld hnew (hkeeps.live hw) hj
  · intro m name v t hstep
    have hmade := (make_advances hkeeps.wf m).post v (make_eq_ok hstep)
    refine ⟨hmade.shares, fun hblock w hw heq => ?_⟩
    -- The number of the new block is the number of the blocks before.
    have hold := (hkeeps.live hw).1
    rw [← heq, hmade.isNew hblock] at hold
    exact Nat.lt_irrefl _ hold

/-- The last four of six bytes are swapped, cut and copied. -/
theorem frame_overlap :
    let commands : List Command :=
      [.make (.ofBytes [1, 2, 3, 4, 5, 6]) (some "whole"), .make (.slice "whole" 2 6) (some "end")]
    let s := (empty.run commands).2
    let t := (s.step (.edit "end" .shown (.swap .bits16))).2
    (t.store.read ⟨0, 2, 4⟩ = [4, 3, 6, 5] ∧
      ∀ j < 6, (t.store.read ⟨0, 0, 6⟩)[j]? =
        if 2 ≤ j ∧ j - 2 < 4 then [4, 3, 6, 5][j - 2]? else (s.store.read ⟨0, 0, 6⟩)[j]?) ∧
      (∃ w, s.window? "end" = some w ∧ 0 = w.block) ∧ 1 ≠ 0 := by
  intro commands s t
  have hwhole : Live (empty.run commands).1 s ⟨0, 0, 6⟩ := .inr ⟨"whole", rfl⟩
  have hframe := @frame s commands (empty.run commands).1 rfl
  refine ⟨?_, ?_, ?_⟩
  · obtain ⟨v, e, new, reply, hv, he, happly, hread, hbytes⟩ :=
      hframe.1 "end" .shown (.swap .bits16) (.reply .nothing) t rfl
    have hend : s.extent "end" .shown = .ok ⟨0, 2, 4⟩ := rfl
    obtain rfl : ⟨0, 2, 4⟩ = v := Except.ok.inj (hend.symm.trans hv)
    have hswapped : t.store.read ⟨0, 2, 4⟩ = [4, 3, 6, 5] := by decide +kernel
    rw [hread] at hswapped
    subst hswapped
    refine ⟨hread, fun j hj => ?_⟩
    simpa using hbytes ⟨0, 0, 6⟩ hwhole j hj
  · exact (hframe.2 (.slice "end" 1 3) none ⟨0, 3, 2⟩ _ rfl).1 "end" rfl
  · exact (hframe.2 (.copyOf "end") none ⟨1, 0, 4⟩ _ rfl).2 rfl ⟨0, 0, 6⟩ hwhole

end Session

end Octets
