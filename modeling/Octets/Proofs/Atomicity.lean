import Octets.Proofs.Refinement

/-!
# Edits that stop

An edit looks at all of its arguments before it changes a byte. Where it stops, in a fault or in a
trap, all blocks are what they were.
-/

namespace Octets

variable {s t : Store}

namespace Store

/-- An action that settles and stops has not changed the store. -/
theorem eq_of_settle_eq_error {α : Type} {w : Window} {r : Except Stop (Bytes × α)} {stop : Stop}
    (h : s.settle w r = .error stop t) : t = s := by
  cases r with
  | ok result => nomatch h
  | error _ => exact (EStateM.Result.error.inj h).2.symm

/-- An edit of a window that stops, and a write of a byte to a block that stops, leave every byte
of every block as it was, whatever windows are among the arguments. -/
theorem unchanged_of_stop (s : Store) :
    (∀ (w : Window) (e : Edit Window), s.Holds w → (∀ v ∈ e.buffers, s.Holds v) →
      ∀ (stop : Stop) (t : Store), (e.perform w).run s = .error stop t → t = s) ∧
    ∀ (id index : Nat) (b : UInt8) (stop : Stop) (t : Store),
      (writeByte id index b).run s = .error stop t → t = s := by
  constructor
  · intro w e hw he stop t h
    rw [e.run_perform hw he] at h
    exact eq_of_settle_eq_error h
  · intro id index b stop t h
    rw [run_writeByte] at h
    cases hset : Content.setByte (s.block id) index b with
    | ok new => simp [hset] at h
    | error f =>
      rw [hset] at h
      exact (EStateM.Result.error.inj h).2.symm

/-- A fill with an empty part of the window that is filled. -/
theorem unchanged_of_stop_fill :
    let s : Store := ⟨[[1, 2, 3, 4, 5]]⟩
    let e : Edit Window := .fill (.buffer ⟨0, 3, 0⟩) .undefined .undefined .undefined
    (e.perform ⟨0, 1, 3⟩).run s = .error (.fault (.invalidValue "value" (.buffer []))) s ∧
      s = ⟨[[1, 2, 3, 4, 5]]⟩ :=
  have h : ((Edit.fill (.buffer ⟨0, 3, 0⟩) .undefined .undefined .undefined).perform
      ⟨0, 1, 3⟩).run ⟨[[1, 2, 3, 4, 5]]⟩ =
      .error (.fault (.invalidValue "value" (.buffer []))) ⟨[[1, 2, 3, 4, 5]]⟩ := rfl
  ⟨h, (unchanged_of_stop ⟨[[1, 2, 3, 4, 5]]⟩).1 ⟨0, 1, 3⟩ _ (by decide) (by decide) _ _ h⟩

end Store

end Octets
