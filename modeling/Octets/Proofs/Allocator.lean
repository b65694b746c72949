import Mathlib.Data.List.Forall2
import Octets.Proofs.Claim
import Octets.Proofs.Independence

/-!
# A pool is as good as blocks

A client that takes its buffers from a pool cannot tell that they share a block. With the same
steps, a client whose buffers are blocks of their own gets the same answers and sees the same
bytes in all of them, after every step.

* `Session.Refines`: two sessions whose buffers show pairwise the same bytes, where in the first
  one they are sound claims of a pool and in the second one different blocks.
* `Session.step_refines`, `Session.run_refines`: a step of the client, and any sequence of steps,
  keeps the two sessions so, and is answered alike.
* `Session.pool_refines_blocks`: the theorem about sessions from nothing.
-/

namespace Octets

/-! ## Clients of an allocator -/

/-- What a client of an allocator does: take a buffer, change the bytes of one, look at one. -/
inductive ClientStep where
  | allocate (size : Nat) (name : Option Name)
  | edit (on : Name) (e : Edit Name)
  | query (on : Name) (q : Query Name)

/-- The command of a step, with the allocator that buffers are taken from. -/
def ClientStep.command (allocator : Nat → Maker) : ClientStep → Command
  | .allocate size name => .make (allocator size) name
  | .edit on e => .edit on .shown e
  | .query on q => .query on .shown q

/-- The buffer of an answer. -/
def Answer.window? : Except Failure Answer → Option Window
  | .ok (.buffer w) => some w
  | _ => none

/-- The buffers that have been taken. -/
def allocated (answers : List (Except Failure Answer)) : List Window :=
  answers.filterMap Answer.window?

/-- Two answers of the same kind: the same failure, the same reply, or buffers of the same
number of bytes. -/
inductive Alike : Except Failure Answer → Except Failure Answer → Prop where
  | failure (failure : Failure) : Alike (.error failure) (.error failure)
  | reply (r : Reply) : Alike (.ok (.reply r)) (.ok (.reply r))
  | buffer {v w : Window} (h : v.length = w.length) : Alike (.ok (.buffer v)) (.ok (.buffer w))

namespace Session

variable {s t : Session} {v w : Window} {on : Name}

/-! ## Steps of a session -/

/-- A name that is given a window stands for it, and all others for what they stood for. -/
theorem window?_bind (s : Session) (name : Option Name) (w : Window) (other : Name) :
    (s.bind name w).window? other = if name = some other then some w else s.window? other := by
  cases name with
  | none => rfl
  | some name =>
    by_cases h : name = other
    · subst h
      rw [if_pos rfl]
      exact lookup_insert_self name w s.buffers
    · rw [if_neg fun heq => h (Option.some.inj heq)]
      exact lookup_insert_of_ne (Ne.symm h) w s.buffers

@[simp] theorem store_bind (s : Session) (name : Option Name) (w : Window) :
    (s.bind name w).store = s.store := by
  cases name <;> rfl

@[simp] theorem pool?_bind (s : Session) (name : Option Name) (w : Window) (pool : Name) :
    (s.bind name w).pool? pool = s.pool? pool := by
  cases name <;> rfl

/-- Names that stand for windows of the store. -/
structure StandFor (s : Session) (names : List Name) (f : Name → Window) : Prop where
  window?_eq : ∀ x ∈ names, s.window? x = some (f x)
  held : ∀ x ∈ names, s.store.Holds (f x)

section

variable {f : Name → Window}

/-- An edit whose names stand for windows of the store. -/
theorem step_edit {e : Edit Name} (h : s.StandFor (on :: e.buffers) f) :
    s.step (.edit on .shown e) =
      match (e.map (s.store.read ∘ f)).apply (s.store.read (f on)) with
      | .ok (new, reply) => (.ok (.reply reply), { s with store := s.store.write (f on) new })
      | .error stop => (.error (.ofStop stop), s) := by
  obtain ⟨hon, hbuffers⟩ := List.forall_mem_cons.mp h.window?_eq
  obtain ⟨hheld, hbuffersHeld⟩ := List.forall_mem_cons.mp h.held
  have hresolve : s.edit on .shown e = .ok ((e.map f).perform (f on)) := by
    simp only [edit, extent, window, hon, Edit.mapM?_eq_some hbuffers]
    rfl
  have hrun := (e.map f).run_perform hheld (by simpa using hbuffersHeld)
  rw [Edit.map_map] at hrun
  unfold step respond carryOut
  simp only [hresolve, hrun]
  cases (e.map (s.store.read ∘ f)).apply (s.store.read (f on)) with
  | ok result => rfl
  | error stop => rfl

/-- A query whose names stand for windows of the store. -/
theorem step_query {q : Query Name} (h : s.StandFor (on :: q.buffers) f) :
    s.step (.query on .shown q) =
      match (q.map (s.store.read ∘ f)).answer (s.store.read (f on)) with
      | .ok reply => (.ok (.reply reply), s)
      | .error stop => (.error (.ofStop stop), s) := by
  obtain ⟨hon, hbuffers⟩ := List.forall_mem_cons.mp h.window?_eq
  obtain ⟨hheld, hbuffersHeld⟩ := List.forall_mem_cons.mp h.held
  have hresolve : s.query on .shown q = .ok ((q.map f).ask (f on)) := by
    simp only [query, extent, window, hon, Query.mapM?_eq_some hbuffers]
    rfl
  have hrun := (q.map f).run_ask hheld (by simpa using hbuffersHeld)
  rw [Query.map_map] at hrun
  unfold step respond carryOut
  simp only [hresolve, hrun]
  cases (q.map (s.store.read ∘ f)).answer (s.store.read (f on)) with
  | ok reply => rfl
  | error stop => rfl

end

/-- An edit one of whose names stands for nothing. -/
theorem step_edit_unbound {e : Edit Name} {x : Name} (hx : x ∈ on :: e.buffers)
    (h : s.window? x = none) : s.step (.edit on .shown e) = (.error (.unbound on), s) := by
  have hresolve : s.edit on .shown e = .error (.unbound on) := by
    simp only [edit, extent, window]
    rcases List.mem_cons.mp hx with rfl | hx
    · rw [h]
      rfl
    · rw [Edit.mapM?_eq_none hx h]
      cases s.window? on <;> rfl
  unfold step respond carryOut
  simp only [hresolve]
  rfl

/-- A query one of whose names stands for nothing. -/
theorem step_query_unbound {q : Query Name} {x : Name} (hx : x ∈ on :: q.buffers)
    (h : s.window? x = none) : s.step (.query on .shown q) = (.error (.unbound on), s) := by
  have hresolve : s.query on .shown q = .error (.unbound on) := by
    simp only [query, extent, window]
    rcases List.mem_cons.mp hx with rfl | hx
    · rw [h]
      rfl
    · rw [Query.mapM?_eq_none hx h]
      cases s.window? on <;> rfl
  unfold step respond carryOut
  simp only [hresolve]
  rfl

/-- A block is made, unless it would have too many bytes. -/
theorem step_block (s : Session) (size : Nat) (name : Option Name) :
    s.step (.make (.block size) name) =
      match Argument.blockSize size with
      | .ok _ => (.ok (.buffer ⟨s.store.blocks.length, 0, size⟩),
          { s with store := (s.store.adopt (List.replicate size 0)).2 }.bind name
            ⟨s.store.blocks.length, 0, size⟩)
      | .error f => (.error (.fault f), s) := by
  have hrun := s.store.run_allocate size
  cases hblock : Argument.blockSize size with
  | ok _ =>
    have hwindow : (s.store.adopt (List.replicate size 0)).1 =
        ⟨s.store.blocks.length, 0, size⟩ := by simp [Store.adopt]
    rw [hblock, liftM_ok, ok_bind, Store.added_ok, hwindow] at hrun
    refine step_make_ok ?_ name
    show s.carryOut (.ok (Store.allocate size)) = _
    simp only [carryOut, hrun]
  | error f =>
    rw [hblock] at hrun
    refine step_make_error ?_ name
    show s.carryOut (.ok (Store.allocate size)) = _
    simp only [carryOut, hrun]
    rfl

section

variable {pool : Name} {p q : Pool} {size : Nat}

/-- A claim that a pool of the session makes. -/
theorem step_claim {store : Store} (hpool : s.pool? pool = some p)
    (hrun : (Pool.claim size).run (p, s.store) = .ok v (q, store)) (name : Option Name) :
    s.step (.make (.claim pool size) name) =
      (.ok (.buffer v), { s with store, pools := insert pool q s.pools }.bind name v) := by
  refine step_make_ok ?_ name
  show s.carryOutOn pool (.ok (Pool.claim size)) = _
  simp only [carryOutOn, hpool, hrun]

/-- A claim that a pool of the session refuses. -/
theorem step_claim_error {f : Fault} (hpool : s.pool? pool = some p)
    (hrun : (Pool.claim size).run (p, s.store) = .error (.fault f) (p, s.store))
    (name : Option Name) :
    s.step (.make (.claim pool size) name) =
      (.error (.fault f), { s with pools := insert pool p s.pools }) := by
  refine step_make_error ?_ name
  show s.carryOutOn pool (.ok (Pool.claim size)) = _
  simp only [carryOutOn, hpool, hrun]
  rfl

end

/-! ## Sessions with a pool and sessions with blocks -/

/-- Claims that lie apart, and different blocks. -/
def Separate (a b : Window × Window) : Prop := a.1.Apart b.1 ∧ a.2.block ≠ b.2.block

instance : Std.Symm Separate where
  symm _ _ h := ⟨Std.Symm.symm _ _ h.1, h.2.symm⟩

/-- The buffers that have been taken in two sessions, pair by pair: they show the same bytes. In
the first session they are sound claims of its pool, in the second one blocks of their own. A name
stands for a pair, or for nothing in both sessions. -/
structure Refines (pool : Name) (pairs : List (Window × Window)) (s t : Session) : Prop where
  pooled : ∃ p, s.pool? pool = some p ∧ p.config.poolSize ≤ maxLength ∧
    p.Sound (pairs.map Prod.fst) s.store
  shows : ∀ pair ∈ pairs, ShowSame s.store t.store pair.1 pair.2
  separate : pairs.Pairwise Separate
  named : ∀ name, (s.window? name = none ∧ t.window? name = none) ∨
    ∃ pair ∈ pairs, s.window? name = some pair.1 ∧ t.window? name = some pair.2

namespace Refines

variable {pool : Name} {pairs : List (Window × Window)}

/-- Sessions from nothing, the first one with a pool. -/
theorem start {config : PoolConfig} (hconfig : config.Valid) (hmax : config.poolSize ≤ maxLength)
    (pool : Name) : Refines pool [] (empty.bindPool (some pool) (.new config)) empty where
  pooled := ⟨.new config, lookup_insert_self pool _ _, hmax, Pool.sound_new hconfig _⟩
  shows _ hmem := nomatch hmem
  separate := .nil
  named _ := .inl ⟨rfl, rfl⟩

/-- Either one of the names stands for nothing in both sessions, or all of them stand for pairs. -/
theorem resolved (h : Refines pool pairs s t) (names : List Name) :
    (∃ x ∈ names, s.window? x = none ∧ t.window? x = none) ∨
      ∃ f g : Name → Window, s.StandFor names f ∧ t.StandFor names g ∧
        ∀ x ∈ names, (f x, g x) ∈ pairs := by
  by_cases hnone : ∃ x ∈ names, s.window? x = none
  · obtain ⟨x, hx, hs⟩ := hnone
    rcases h.named x with hboth | ⟨pair, _, hpair, _⟩
    · exact .inl ⟨x, hx, hboth⟩
    · rw [hs] at hpair
      nomatch hpair
  · let f : Name → Window := fun x => (s.window? x).getD ⟨0, 0, 0⟩
    let g : Name → Window := fun x => (t.window? x).getD ⟨0, 0, 0⟩
    have hpairs : ∀ x ∈ names,
        s.window? x = some (f x) ∧ t.window? x = some (g x) ∧ (f x, g x) ∈ pairs := by
      intro x hx
      rcases h.named x with ⟨hs, _⟩ | ⟨pair, hpair, hs, ht⟩
      · exact absurd ⟨x, hx, hs⟩ hnone
      · simp only [f, g, hs, ht, Option.getD_some]
        exact ⟨trivial, trivial, hpair⟩
    refine .inr ⟨f, g, ⟨fun x hx => (hpairs x hx).1, fun x hx => ?_⟩,
      ⟨fun x hx => (hpairs x hx).2.1, fun x hx => ?_⟩, fun x hx => (hpairs x hx).2.2⟩
    · exact (h.shows _ (hpairs x hx).2.2).holds_left
    · exact (h.shows _ (hpairs x hx).2.2).holds_right

/-- The same bytes are written into the two buffers of a pair. -/
theorem write (h : Refines pool pairs s t) (hpair : (v, w) ∈ pairs) {new : Bytes}
    (hnew : new.length = v.length) :
    Refines pool pairs { s with store := s.store.write v new }
      { t with store := t.store.write w new } := by
  obtain ⟨p, hpool, hmax, hsound⟩ := h.pooled
  have hsame := h.shows (v, w) hpair
  have hnewRight : new.length = w.length := by rw [hnew, hsame.length_eq]
  have hgrows := Store.Extends.write hsame.holds_left hnew
  have hgrowsRight := Store.Extends.write hsame.holds_right hnewRight
  have hclaim : v ∈ pairs.map Prod.fst := List.mem_map_of_mem hpair
  refine ⟨⟨p, hpool, hmax, (hsound.write hclaim hnew).1⟩, fun other hother => ?_, h.separate,
    h.named⟩
  have hshows := h.shows other hother
  refine ⟨hgrows.holds hshows.holds_left, hgrowsRight.holds hshows.holds_right, ?_⟩
  by_cases heq : (v, w) = other
  · subst heq
    rw [Store.read_write_self hsame.holds_left hnew,
      Store.read_write_self hsame.holds_right hnewRight]
  · -- Neither of the two writes shows in another pair.
    obtain ⟨hapart, hne⟩ := h.separate.forall hpair hother heq
    rw [Store.read_write_of_apart hsame.holds_left hnew hshows.holds_left hapart,
      Store.read_write_of_ne hne, hshows.read_eq]

/-- A new claim of the pool, and a new block of as many zeros. -/
theorem allocate (h : Refines pool pairs s t) {p q : Pool} {size : Nat} {store : Store}
    (hpool : s.pool? pool = some p) (hclaim : p.Claimed s.store size v q store)
    (name : Option Name) :
    Refines pool (pairs ++ [(v, ⟨t.store.blocks.length, 0, size⟩)])
      ({ s with store, pools := insert pool q s.pools }.bind name v)
      ({ t with store := (t.store.adopt (List.replicate size 0)).2 }.bind name
        ⟨t.store.blocks.length, 0, size⟩) := by
  obtain ⟨p', hpool', hmax, hsound⟩ := h.pooled
  obtain rfl : p = p' := Option.some.inj (hpool.symm.trans hpool')
  obtain ⟨hclaims, hzeros, hothers⟩ := hsound.claim hclaim
  obtain ⟨hheld, hblockZeros⟩ := t.store.zeros_adopt (Nat.le_refl size)
  have hgrows := Store.Extends.adopt t.store (List.replicate size 0)
  have hclaimHeld : store.Holds v := hclaims.held v (by simp)
  refine ⟨⟨q, ?_, ?_, ?_⟩, fun pair hpair => ?_, ?_, fun other => ?_⟩
  · rw [pool?_bind]
    exact lookup_insert_self pool q s.pools
  · rw [hclaim.config_eq]
    exact hmax
  · rw [store_bind, List.map_append]
    exact hclaims
  · rw [store_bind, store_bind]
    rcases List.mem_append.mp hpair with hpair | hpair
    · have hshows := h.shows pair hpair
      have hold : pair.1 ∈ pairs.map Prod.fst := List.mem_map_of_mem hpair
      refine ⟨hclaims.held pair.1 (List.mem_append_left _ hold),
        hgrows.holds hshows.holds_right, ?_⟩
      rw [hothers pair.1 hold, Store.read_adopt hshows.holds_right.1, hshows.read_eq]
    · obtain rfl := List.mem_singleton.mp hpair
      exact ⟨hclaimHeld, hheld, hzeros.trans hblockZeros.symm⟩
  · refine List.pairwise_append.mpr ⟨h.separate, List.pairwise_singleton _ _, ?_⟩
    intro pair hpair last hlast
    obtain rfl := List.mem_singleton.mp hlast
    have hapart := (List.pairwise_append.mp hclaims.apart).2.2 pair.1 (List.mem_map_of_mem hpair) v
      List.mem_cons_self
    exact ⟨hapart, Nat.ne_of_lt (h.shows pair hpair).holds_right.1⟩
  · rw [window?_bind, window?_bind]
    by_cases hname : name = some other
    · rw [if_pos hname, if_pos hname]
      exact .inr ⟨_, List.mem_append_right _ List.mem_cons_self, rfl, rfl⟩
    · rw [if_neg hname, if_neg hname]
      rcases h.named other with hnone | ⟨pair, hpair, hboth⟩
      · exact .inl hnone
      · exact .inr ⟨pair, List.mem_append_left _ hpair, hboth⟩

/-- A claim that is refused puts the pool back as it was. -/
theorem putBack (h : Refines pool pairs s t) {p : Pool} (hpool : s.pool? pool = some p) :
    Refines pool pairs { s with pools := insert pool p s.pools } t := by
  obtain ⟨p', hpool', hmax, hsound⟩ := h.pooled
  obtain rfl : p = p' := Option.some.inj (hpool.symm.trans hpool')
  exact ⟨⟨p, lookup_insert_self pool p s.pools, hmax, hsound⟩, h.shows, h.separate, h.named⟩

end Refines

/-! ## Steps and runs of a client -/

/-- What steps of a client lead to: two sessions with the buffers that were there and the new ones,
which are those of the answers, and answers that are alike. -/
structure Matches (pool : Name) (pairs new : List (Window × Window))
    (left right : List (Except Failure Answer)) (s t : Session) : Prop where
  refines : Refines pool (pairs ++ new) s t
  left_eq : allocated left = new.map Prod.fst
  right_eq : allocated right = new.map Prod.snd
  alike : List.Forall₂ Alike left right

section

variable {pool : Name} {pairs : List (Window × Window)}

/-- A step that makes no buffer. -/
theorem Matches.of_alike {left right : Except Failure Answer} (h : Refines pool pairs s t)
    (halike : Alike left right) (hleft : Answer.window? left = none)
    (hright : Answer.window? right = none) : Matches pool pairs [] [left] [right] s t := by
  refine ⟨by rwa [List.append_nil], ?_, ?_, .cons halike .nil⟩
  · simp [allocated, hleft]
  · simp [allocated, hright]

/-- Every step of a client keeps the two sessions alike. -/
theorem step_refines (h : Refines pool pairs s t) (step : ClientStep) :
    ∃ new, Matches pool pairs new [(s.step (step.command (.claim pool))).1]
      [(t.step (step.command .block)).1] (s.step (step.command (.claim pool))).2
      (t.step (step.command .block)).2 := by
  cases step with
  | allocate size name =>
    obtain ⟨p, hpool, hmax, hsound⟩ := h.pooled
    simp only [ClientStep.command]
    have hdemand := PoolConfig.blockSize_demand hmax size
    cases hblock : Argument.blockSize size with
    | error f =>
      rw [step_claim_error hpool (Pool.run_claim_error hsound.fits (hdemand.trans hblock)),
        step_block, hblock]
      exact ⟨[], .of_alike (h.putBack hpool) (.failure _) rfl rfl⟩
    | ok _ =>
      obtain ⟨v, q, store, hrun, hclaim⟩ :=
        Pool.run_claim_ok hsound.fits (hdemand.trans hblock)
      rw [step_claim hpool hrun, step_block, hblock]
      exact ⟨_, h.allocate hpool hclaim name, rfl, rfl,
        .cons (.buffer hclaim.length_eq) .nil⟩
  | edit on e =>
    simp only [ClientStep.command]
    rcases h.resolved (on :: e.buffers) with ⟨x, hx, hs, ht⟩ | ⟨f, g, hf, hg, hpairs⟩
    · rw [step_edit_unbound hx hs, step_edit_unbound hx ht]
      exact ⟨[], .of_alike h (.failure _) rfl rfl⟩
    · obtain ⟨hpair, hbuffers⟩ := List.forall_mem_cons.mp hpairs
      have hon := h.shows _ hpair
      have hseen : e.map (s.store.read ∘ f) = e.map (t.store.read ∘ g) :=
        Edit.map_congr fun x hx => (h.shows _ (hbuffers x hx)).read_eq
      rw [step_edit hf, step_edit hg, hseen, ← hon.read_eq]
      -- Both sessions see the same bytes, so that the edit does the same in both.
      cases happly : (e.map (t.store.read ∘ g)).apply (s.store.read (f on)) with
      | ok result =>
        obtain ⟨new, reply⟩ := result
        have hnew : new.length = (f on).length := by
          rw [Edit.length_apply happly, Store.length_read hon.holds_left]
        exact ⟨[], .of_alike (h.write hpair hnew) (.reply reply) rfl rfl⟩
      | error stop => exact ⟨[], .of_alike h (.failure _) rfl rfl⟩
  | query on q =>
    simp only [ClientStep.command]
    rcases h.resolved (on :: q.buffers) with ⟨x, hx, hs, ht⟩ | ⟨f, g, hf, hg, hpairs⟩
    · rw [step_query_unbound hx hs, step_query_unbound hx ht]
      exact ⟨[], .of_alike h (.failure _) rfl rfl⟩
    · obtain ⟨hpair, hbuffers⟩ := List.forall_mem_cons.mp hpairs
      have hseen : q.map (s.store.read ∘ f) = q.map (t.store.read ∘ g) :=
        Query.map_congr fun x hx => (h.shows _ (hbuffers x hx)).read_eq
      rw [step_query hf, step_query hg, hseen, ← (h.shows _ hpair).read_eq]
      cases (q.map (t.store.read ∘ g)).answer (s.store.read (f on)) with
      | ok reply => exact ⟨[], .of_alike h (.reply reply) rfl rfl⟩
      | error stop => exact ⟨[], .of_alike h (.failure _) rfl rfl⟩

/-- Every sequence of steps of a client keeps the two sessions alike. -/
theorem run_refines (h : Refines pool pairs s t) (client : List ClientStep) :
    ∃ new, Matches pool pairs new (s.run (client.map (·.command (.claim pool)))).1
      (t.run (client.map (·.command .block))).1 (s.run (client.map (·.command (.claim pool)))).2
      (t.run (client.map (·.command .block))).2 := by
  induction client generalizing s t pairs with
  | nil => exact ⟨[], by rwa [List.append_nil], rfl, rfl, .nil⟩
  | cons step rest ih =>
    obtain ⟨new, hstep⟩ := step_refines h step
    obtain ⟨later, hrest⟩ := ih hstep.refines
    refine ⟨new ++ later, by rw [← List.append_assoc]; exact hrest.refines, ?_, ?_, ?_⟩
    · rw [List.map_append, ← hstep.left_eq, ← hrest.left_eq]
      exact List.filterMap_append (l := [_])
    · rw [List.map_append, ← hstep.right_eq, ← hrest.right_eq]
      exact List.filterMap_append (l := [_])
    · obtain ⟨halike, _⟩ := List.forall₂_cons.mp hstep.alike
      exact .cons halike hrest.alike

/-- A buffer that is taken from the pool shows zeros. -/
theorem Refines.read_claim (h : Refines pool pairs s t) {size : Nat} {name : Option Name}
    {u : Session} (hstep : s.step (.make (.claim pool size) name) = (.ok (.buffer v), u)) :
    u.store.read v = List.replicate size 0 := by
  obtain ⟨p, hpool, _, hsound⟩ := h.pooled
  cases hblock : Argument.blockSize (p.config.demand size) with
  | error f =>
    rw [step_claim_error hpool (Pool.run_claim_error hsound.fits hblock)] at hstep
    nomatch hstep
  | ok _ =>
    obtain ⟨v', q, store, hrun, hclaim⟩ := Pool.run_claim_ok hsound.fits hblock
    rw [step_claim hpool hrun] at hstep
    cases hstep
    rw [store_bind]
    exact (hsound.claim hclaim).2.1

/-- An edit of a buffer that has been taken from the pool shows in no other one. -/
theorem Refines.read_edit (h : Refines pool pairs s t) {e : Edit Name}
    {answer : Except Failure Answer} {u : Session}
    (hstep : s.step (.edit on .shown e) = (answer, u)) (hv : v ∈ pairs.map Prod.fst)
    (hne : s.window? on ≠ some v) : u.store.read v = s.store.read v := by
  obtain ⟨p, _, _, hsound⟩ := h.pooled
  rcases h.resolved (on :: e.buffers) with ⟨x, hx, hs, _⟩ | ⟨f, g, hf, _, hpairs⟩
  · rw [step_edit_unbound hx hs] at hstep
    cases hstep
    rfl
  · have hclaim : f on ∈ pairs.map Prod.fst :=
      List.mem_map_of_mem (hpairs on List.mem_cons_self)
    rw [step_edit hf] at hstep
    cases happly : (e.map (s.store.read ∘ f)).apply (s.store.read (f on)) with
    | ok result =>
      obtain ⟨new, reply⟩ := result
      rw [happly] at hstep
      cases hstep
      have hnew : new.length = (f on).length := by
        rw [Edit.length_apply happly, Store.length_read (hf.held on List.mem_cons_self)]
      have hother : v ≠ f on := fun heq =>
        hne (by rw [hf.window?_eq on List.mem_cons_self, heq])
      exact (hsound.write hclaim hnew).2 v hv hother
    | error stop =>
      rw [happly] at hstep
      cases hstep
      rfl

end

/-- A client that takes its buffers from a pool and one that takes blocks of their own, with the
same steps: every step is answered alike, and after all of them, as after any first part of them,
the buffers show pairwise the same bytes. A buffer that the pool then gives shows zeros, and an edit
of one of its buffers shows in no other one. -/
theorem pool_refines_blocks {config : PoolConfig} (hconfig : config.Valid)
    (hmax : config.poolSize ≤ maxLength) (pool : Name) (client : List ClientStep)
    {left right : List (Except Failure Answer)}
    (hleft : (empty.bindPool (some pool) (.new config)).run
      (client.map (·.command (.claim pool))) = (left, s))
    (hright : empty.run (client.map (·.command .block)) = (right, t)) :
    List.Forall₂ Alike left right ∧
      List.Forall₂ (fun v w => s.store.read v = t.store.read w) (allocated left)
        (allocated right) ∧
      (∀ size name v u, s.step (.make (.claim pool size) name) = (.ok (.buffer v), u) →
        u.store.read v = List.replicate size 0) ∧
      ∀ on e answer u, s.step (.edit on .shown e) = (answer, u) →
        ∀ v ∈ allocated left, s.window? on ≠ some v → u.store.read v = s.store.read v := by
  obtain ⟨pairs, hpairs⟩ := run_refines (Refines.start hconfig hmax pool) client
  rw [hleft, hright] at hpairs
  have hrefines : Refines pool pairs s t := hpairs.refines
  refine ⟨hpairs.alike, ?_, fun _ _ _ _ hstep => hrefines.read_claim hstep, ?_⟩
  · rw [hpairs.left_eq, hpairs.right_eq, List.forall₂_map_left_iff, List.forall₂_map_right_iff,
      List.forall₂_same]
    exact fun pair hpair => (hrefines.shows pair hpair).read_eq
  · intro on e answer u hstep v hv hne
    rw [hpairs.left_eq] at hv
    exact hrefines.read_edit hstep hv hne

/-- Two claims in one slab, the second with a copy of the first, and one for which the slab has no
room left. -/
theorem pool_refines_blocks_slabs :
    let client : List ClientStep :=
      [.allocate 5 (some "a"), .edit "a" (.fill (.text "z") .undefined .undefined .undefined),
        .allocate 7 (some "b"), .edit "b" (.copyRange "a" 2 0 5), .allocate 6 none]
    let s := ((empty.bindPool (some "pool") (.new ⟨16⟩)).run
      (client.map (·.command (.claim "pool")))).2
    let t := (empty.run (client.map (·.command .block))).2
    List.Forall₂ (fun v w => s.store.read v = t.store.read w)
        [⟨0, 0, 5⟩, ⟨0, 8, 7⟩, ⟨1, 0, 6⟩] [⟨0, 0, 5⟩, ⟨1, 0, 7⟩, ⟨2, 0, 6⟩] ∧
      t.store.read ⟨1, 0, 7⟩ = [0, 0, 0x7A, 0x7A, 0x7A, 0x7A, 0x7A] := by
  intro client s t
  have hleft : allocated ((empty.bindPool (some "pool") (.new ⟨16⟩)).run
      (client.map (·.command (.claim "pool")))).1 = [⟨0, 0, 5⟩, ⟨0, 8, 7⟩, ⟨1, 0, 6⟩] := by
    decide +kernel
  have hright : allocated (empty.run (client.map (·.command .block))).1 =
      [⟨0, 0, 5⟩, ⟨1, 0, 7⟩, ⟨2, 0, 6⟩] := by decide +kernel
  have hsame := (@pool_refines_blocks s t ⟨16⟩ (by decide) (by decide) "pool" client
    ((empty.bindPool (some "pool") (.new ⟨16⟩)).run (client.map (·.command (.claim "pool")))).1
    (empty.run (client.map (·.command .block))).1 rfl rfl).2.1
  rw [hleft, hright] at hsame
  exact ⟨hsame, by decide +kernel⟩

end Session

end Octets
