import Octets.Memory.Block

/-!
# Outcomes of actions

The ways in which an action of this library ends, each of which determines the state afterwards:

* `Action.outcome` — a computation that leaves the state as it is;
* `Action.commit` — an action on bytes that puts new bytes in their place, or stops and leaves
  them as they are;
* `Store.settle`, `Store.settleBlock` — an action on a store that puts new bytes into a window or
  into a block, or stops and leaves the store as it is;
* `Store.added` — an action on a store that makes a new block, or stops and makes none.

Each comes with a rule for a sequence of two actions, the first of which leaves the state as it is.
What an action does is shown by these rules, along the steps of the action.
-/

namespace Octets

variable {σ α β γ : Type}

/-! ## Lifted computations -/

@[simp] theorem ok_bind {ε : Type} (a : α) (k : α → Except ε β) :
    ((.ok a : Except ε α) >>= k) = k a := rfl

@[simp] theorem error_bind {ε : Type} (e : ε) (k : α → Except ε β) :
    ((.error e : Except ε α) >>= k) = .error e := rfl

/-- A sequence gives a result where both computations give one. -/
theorem bind_eq_ok {ε : Type} {r : Except ε α} {k : α → Except ε β} {b : β} :
    (r >>= k) = .ok b ↔ ∃ a, r = .ok a ∧ k a = .ok b := by
  cases r with
  | ok a => simp
  | error e => simp

/-- A sequence stops where one of the two computations stops. -/
theorem bind_eq_error {ε : Type} {r : Except ε α} {k : α → Except ε β} {e : ε} :
    (r >>= k) = .error e ↔ r = .error e ∨ ∃ a, r = .ok a ∧ k a = .error e := by
  cases r with
  | ok a => simp
  | error e => simp

theorem map_eq_ok {ε : Type} {r : Except ε α} {f : α → β} {b : β} :
    r.map f = .ok b ↔ ∃ a, r = .ok a ∧ f a = b := by
  cases r with
  | ok a => simp [Except.map]
  | error e => simp [Except.map]

@[simp] theorem ok_map {ε : Type} (a : α) (f : α → β) :
    f <$> (.ok a : Except ε α) = .ok (f a) := rfl

@[simp] theorem error_map {ε : Type} (e : ε) (f : α → β) :
    f <$> (.error e : Except ε α) = .error e := rfl

@[simp] theorem liftM_ok (a : α) : (liftM (.ok a : Except Fault α) : Except Stop α) = .ok a := rfl

@[simp] theorem liftM_error (f : Fault) :
    (liftM (.error f : Except Fault α) : Except Stop α) = .error (.fault f) := rfl

theorem liftM_eq_ok_iff {α : Type} {r : Except Fault α} {a : α} :
    (liftM r : Except Stop α) = .ok a ↔ r = .ok a := by
  cases r with
  | ok b => simp
  | error f => simp

theorem liftM_eq_error_iff {α : Type} {r : Except Fault α} {stop : Stop} :
    (liftM r : Except Stop α) = .error stop ↔ ∃ f, r = .error f ∧ stop = .fault f := by
  cases r with
  | ok a => simp
  | error f => simp [eq_comm]

/-- Lifting a sequence of checks lifts each of them. -/
@[simp] theorem liftM_bind (r : Except Fault α) (k : α → Except Fault β) :
    (liftM (r >>= k) : Except Stop β) = liftM r >>= fun a => liftM (k a) := by
  cases r <;> rfl

/-- What follows a check that is mapped follows the check. -/
@[simp] theorem liftM_map_bind (r : Except Fault α) (f : α → β) (g : β → Except Stop γ) :
    (liftM (r.map f) >>= g) = ((liftM r : Except Stop α) >>= fun a => g (f a)) := by
  cases r <;> rfl

@[simp] theorem liftM_pure (a : α) : (liftM (pure a : Except Fault α) : Except Stop α) = pure a :=
  rfl

@[simp] theorem refuse_eq_ok {c : Prop} [Decidable c] {f : Fault} (h : ¬c) : refuse c f = .ok () :=
  if_neg h

@[simp] theorem refuse_eq_error {c : Prop} [Decidable c] {f : Fault} (h : c) :
    refuse c f = .error f :=
  if_pos h

theorem refuse_eq_ok_iff {c : Prop} [Decidable c] {f : Fault} {u : Unit} :
    refuse c f = .ok u ↔ ¬c := by
  by_cases h : c
  · simp [h]
  · simp [h]

namespace Action

@[simp] theorem outcome_ok (a : α) (s : σ) : outcome (.ok a) s = .ok a s := rfl

@[simp] theorem outcome_pure (a : α) (s : σ) : outcome (pure a) s = .ok a s := rfl

@[simp] theorem run_map (f : α → β) (p : Action σ α) (s : σ) :
    (f <$> p).run s =
      match p.run s with
      | .ok a s => .ok (f a) s
      | .error stop s => .error stop s := by
  simp only [EStateM.run, Functor.map, EStateM.map]
  cases p s <;> rfl

@[simp] theorem run_liftM (r : Except Stop α) (s : σ) :
    (liftM r : Action σ α).run s = outcome r s := rfl

@[simp] theorem run_liftM_check (r : Except Fault α) (s : σ) :
    (liftM r : Action σ α).run s = outcome (liftM r) s := rfl

/-- A sequence of two computations that leave the state as it is. -/
theorem run_bind_outcome {p : Action σ α} {k : α → Action σ β} {r : Except Stop α}
    {g : α → Except Stop β} {s : σ} (hp : p.run s = outcome r s)
    (hk : ∀ a, r = .ok a → (k a).run s = outcome (g a) s) :
    (p >>= k).run s = outcome (r >>= g) s := by
  rw [EStateM.run_bind, hp]
  cases r with
  | ok a => exact hk a rfl
  | error stop => rfl

/-! ## Actions on bytes -/

/-- The end of an action that puts new bytes in the place of all bytes. -/
def commit (content : Bytes) (r : Except Stop (Bytes × α)) : EStateM.Result Stop Bytes α :=
  match r with
  | .ok (new, a) => .ok a new
  | .error stop => .error stop content

@[simp] theorem commit_ok (content new : Bytes) (a : α) :
    commit content (.ok (new, a)) = .ok a new := rfl

@[simp] theorem commit_pure (content new : Bytes) (a : α) :
    commit content (pure (new, a)) = .ok a new := rfl

@[simp] theorem commit_error (content : Bytes) (stop : Stop) :
    (commit content (.error stop) : EStateM.Result Stop Bytes α) = .error stop content := rfl

/-- A computation that leaves the bytes as they are, and then an action that replaces them. -/
theorem run_bind_commit {p : Action Bytes α} {k : α → Action Bytes β} {r : Except Stop α}
    {g : α → Except Stop (Bytes × β)} {content : Bytes} (hp : p.run content = outcome r content)
    (hk : ∀ a, r = .ok a → (k a).run content = commit content (g a)) :
    (p >>= k).run content = commit content (r >>= g) := by
  rw [EStateM.run_bind, hp]
  cases r with
  | ok a => exact hk a rfl
  | error stop => rfl

/-- An action on a range that always puts new bytes of the same number in the place of the range
replaces the range. -/
theorem run_within {start stop : Nat} {content new : Bytes} {p : Action Bytes α} {a : α}
    (hp : start ≤ stop → stop ≤ content.length →
      p.run (content.range start stop) = .ok a new)
    (hnew : new.length = stop - start) :
    (within start stop p).run content =
      commit content ((replaced content start stop new).map (·, a)) := by
  unfold within replaced
  by_cases h : start ≤ stop ∧ stop ≤ content.length
  · have hrun := hp h.1 h.2
    simp only [EStateM.run] at hrun ⊢
    simp [on, EStateM.run, hrun, h, hnew, Except.map]
  · simp [EStateM.run, h, Except.map]

/-- An action on a range that puts new bytes in the place of the range, or stops and leaves it as it
is, does so with all bytes. -/
theorem run_within_commit {start stop : Nat} {content : Bytes} {p : Action Bytes α}
    {r : Bytes → Except Stop (Bytes × α)}
    (hp : p.run (content.range start stop) =
      commit (content.range start stop) (r (content.range start stop))) :
    (within start stop p).run content =
      commit content (part content start stop >>= fun slice =>
        r slice >>= fun (new, a) => pure (content.overwrite start new, a)) := by
  unfold within part
  by_cases h : start ≤ stop ∧ stop ≤ content.length
  · simp only [EStateM.run] at hp
    simp only [EStateM.run, on, if_pos h, hp]
    show _ = commit content (r (content.range start stop) >>= _)
    cases r (content.range start stop) with
    | ok result => rfl
    | error e =>
      -- The range that is put back is the one that was taken out.
      exact congrArg _ (Bytes.overwrite_range h.2 h.1)
  · simp only [EStateM.run, if_neg h]
    rfl

theorem run_assign {content new : Bytes} (h : new.length = content.length) :
    (assign new).run content = .ok () new := by
  simp [assign, copied_eq_ok h]

theorem run_within_assign {start stop : Nat} {content new : Bytes}
    (hnew : new.length = stop - start) :
    (within start stop (assign new)).run content =
      commit content ((replaced content start stop new).map (·, ())) := by
  refine run_within (fun hle hlen => run_assign ?_) hnew
  rw [hnew, Bytes.length_range]
  omega

theorem run_within_modify {start stop : Nat} {content new : Bytes} {f : Bytes → Bytes}
    (hf : ∀ slice : Bytes, slice.length = stop - start → f slice = new)
    (hnew : new.length = stop - start) :
    (within start stop (modify f)).run content =
      commit content ((replaced content start stop new).map (·, ())) := by
  refine run_within (fun hle hlen => ?_) hnew
  rw [EStateM.run_modify, hf _ (by rw [Bytes.length_range]; omega)]

end Action

/-! ## Actions on a store -/

namespace Store

/-- The end of an edit: the store with the new bytes in a window, or as it was. -/
def settle (s : Store) (w : Window) (r : Except Stop (Bytes × α)) : EStateM.Result Stop Store α :=
  match r with
  | .ok (new, a) => .ok a (s.write w new)
  | .error stop => .error stop s

@[simp] theorem settle_ok (s : Store) (w : Window) (new : Bytes) (a : α) :
    s.settle w (.ok (new, a)) = .ok a (s.write w new) := rfl

@[simp] theorem settle_pure (s : Store) (w : Window) (new : Bytes) (a : α) :
    s.settle w (pure (new, a)) = .ok a (s.write w new) := rfl

@[simp] theorem settle_error (s : Store) (w : Window) (stop : Stop) :
    (s.settle w (.error stop) : EStateM.Result Stop Store α) = .error stop s := rfl

/-- What an edit that ends well has done. -/
theorem settle_eq_ok_iff {s t : Store} {w : Window} {r : Except Stop (Bytes × α)} {a : α} :
    s.settle w r = .ok a t ↔ ∃ new, r = .ok (new, a) ∧ t = s.write w new := by
  cases r with
  | ok result =>
    obtain ⟨new, b⟩ := result
    simp [and_assoc, eq_comm]
  | error stop => simp

/-- What an edit that a check has stopped has done. -/
theorem settle_liftM_eq_error_iff {s t : Store} {w : Window} {r : Except Fault (Bytes × α)}
    {stop : Stop} :
    (s.settle w (liftM r) : EStateM.Result Stop Store α) = .error stop t ↔
      t = s ∧ ∃ f, r = .error f ∧ stop = .fault f := by
  cases r with
  | ok result =>
    obtain ⟨new, a⟩ := result
    simp
  | error f => simp [and_comm, eq_comm]

theorem settle_unit_eq_ok_iff {s t : Store} {w : Window} {r : Except Stop Bytes} :
    s.settle w ((·, ()) <$> r) = .ok () t ↔ ∃ new, r = .ok new ∧ t = s.write w new := by
  cases r with
  | ok new => simp [eq_comm]
  | error stop => simp

/-- The end of an action on a block: the store with the new bytes in the block, or as it was. -/
def settleBlock (s : Store) (id : Nat) (r : Except Stop (Bytes × α)) :
    EStateM.Result Stop Store α :=
  match r with
  | .ok (new, a) => .ok a (setBlock id new s)
  | .error stop => .error stop s

@[simp] theorem settleBlock_ok (s : Store) (id : Nat) (new : Bytes) (a : α) :
    s.settleBlock id (.ok (new, a)) = .ok a (setBlock id new s) := rfl

@[simp] theorem settleBlock_error (s : Store) (id : Nat) (stop : Stop) :
    (s.settleBlock id (.error stop) : EStateM.Result Stop Store α) = .error stop s := rfl

/-- The end of an action that makes a new block: the window onto it and the store with it, or the
store as it was. -/
def added (s : Store) (r : Except Stop Bytes) : EStateM.Result Stop Store Window :=
  match r with
  | .ok content => .ok (s.adopt content).1 (s.adopt content).2
  | .error stop => .error stop s

@[simp] theorem added_ok (s : Store) (content : Bytes) :
    s.added (.ok content) = .ok (s.adopt content).1 (s.adopt content).2 := rfl

/-- A computation that leaves the store as it is, and then an action that makes a block. -/
theorem run_bind_added {p : Action Store α} {k : α → Action Store Window} {r : Except Stop α}
    {g : α → Except Stop Bytes} {s : Store} (hp : p.run s = Action.outcome r s)
    (hk : ∀ a, r = .ok a → (k a).run s = s.added (g a)) :
    (p >>= k).run s = s.added (r >>= g) := by
  rw [EStateM.run_bind, hp]
  cases r with
  | ok a => exact hk a rfl
  | error stop => rfl

/-- A computation that leaves the store as it is, and then an edit. -/
theorem run_bind_settle {p : Action Store α} {k : α → Action Store β} {r : Except Stop α}
    {g : α → Except Stop (Bytes × β)} {s : Store} {w : Window}
    (hp : p.run s = Action.outcome r s) (hk : ∀ a, r = .ok a → (k a).run s = s.settle w (g a)) :
    (p >>= k).run s = s.settle w (r >>= g) := by
  rw [EStateM.run_bind, hp]
  cases r with
  | ok a => exact hk a rfl
  | error stop => rfl

/-- An edit, and then an answer that is computed from its result. -/
theorem run_settle_map {p : Action Store α} {r : Except Stop (Bytes × α)} {f : α → β} {s : Store}
    {w : Window} (hp : p.run s = s.settle w r) :
    (p >>= fun a => pure (f a)).run s =
      s.settle w (r >>= fun (new, a) => pure (new, f a)) := by
  rw [EStateM.run_bind, hp]
  cases r with
  | ok result => rfl
  | error stop => rfl

/-- An edit without a result, and then an answer. -/
theorem run_settle_return {p : Action Store Unit} {r : Except Stop Bytes} {s : Store} {w : Window}
    (hp : p.run s = s.settle w ((·, ()) <$> r)) (a : α) :
    (p >>= fun _ => pure a).run s = s.settle w (r >>= fun new => pure (new, a)) := by
  rw [EStateM.run_bind, hp]
  cases r with
  | ok new => rfl
  | error stop => rfl

end Store

end Octets
