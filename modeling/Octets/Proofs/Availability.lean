import Octets.Proofs.Allocator

/-!
# What a pool can give

An allocator is to give every buffer of at most `maxLength` bytes, and to refuse a larger one as
out of range. A pool does so in every state of a session if its slabs are not larger than a block
may be. The settings may ask for larger ones; then the pool refuses every request that is to be cut
out of a slab, however small it is, and still gives the others.

* `Session.Gives`, `Session.Refuses`: the two answers to a request;
* `Session.Available`: the contract of an allocator;
* `Session.available_iff`: what a pool gives, and that it keeps the contract exactly if its slabs
  can be made.
-/

namespace Octets

/-- Where slabs can be made, a request needs a block that can be made if its own size is that of a
block. -/
theorem PoolConfig.demand_le_iff {c : PoolConfig} (hmax : c.poolSize ≤ maxLength) {size : Nat} :
    c.demand size ≤ maxLength ↔ size ≤ maxLength := by
  unfold demand
  split
  · rename_i hpools
    exact ⟨fun _ => Nat.le_trans hpools.le hmax, fun _ => hmax⟩
  · exact Iff.rfl

/-- Where slabs are larger than a block may be, a request for one byte needs one. -/
theorem PoolConfig.demand_one {c : PoolConfig} (h : maxLength < c.poolSize) :
    c.demand 1 = c.poolSize := by
  have hmax : maxLength = 2147483647 := rfl
  refine if_pos ⟨Nat.one_pos, ?_⟩
  unfold threshold
  omega

namespace Session

variable {s : Session} {pool : Name} {p : Pool} {size : Nat}

/-- A request to a pool is given a buffer of exactly as many bytes, under any name. -/
def Gives (s : Session) (pool : Name) (size : Nat) : Prop :=
  ∀ name, ∃ v t, s.step (.make (.claim pool size) name) = (.ok (.buffer v), t) ∧
    v.length = size ∧ t.store.Holds v

/-- A request to a pool is refused as out of range. -/
def Refuses (s : Session) (pool : Name) (size : Nat) : Prop :=
  ∀ name, ∃ f t, s.step (.make (.claim pool size) name) = (.error (.fault f), t) ∧
    f.kind = .range

/-- The contract of an allocator. -/
structure Available (s : Session) (pool : Name) : Prop where
  gives_iff : ∀ size, s.Gives pool size ↔ size ≤ maxLength
  refuses_iff : ∀ size, s.Refuses pool size ↔ maxLength < size

/-- No request is both given a buffer and refused. -/
theorem Gives.not_refuses (h : s.Gives pool size) : ¬s.Refuses pool size := by
  intro hrefuses
  obtain ⟨_, _, hgiven, _⟩ := h none
  obtain ⟨_, _, hrefused, _⟩ := hrefuses none
  rw [hgiven] at hrefused
  nomatch hrefused

/-- A request is given a buffer if the block that it needs can be made. -/
theorem gives_of_demand_le (hs : s.Wf) (hpool : s.pool? pool = some p)
    (h : p.config.demand size ≤ maxLength) : s.Gives pool size := by
  intro name
  have hfits := hs.fits pool p hpool
  obtain ⟨v, q, store, hrun, hclaim⟩ :=
    Pool.run_claim_ok hfits (Argument.blockSize_eq_ok h)
  have hstep := step_claim hpool hrun name
  refine ⟨v, _, hstep, hclaim.length_eq, ?_⟩
  have hshows := (step_advances hs (.make (.claim pool size) name)).post (.buffer v)
    (congrArg Prod.fst hstep) v rfl
  rw [hstep] at hshows
  exact hshows

/-- A request is refused if the block that it needs cannot be made. -/
theorem refuses_of_lt_demand (hs : s.Wf) (hpool : s.pool? pool = some p)
    (h : maxLength < p.config.demand size) : s.Refuses pool size := by
  intro name
  have hblock : Argument.blockSize (p.config.demand size) = .error _ := if_pos h
  have hrun := Pool.run_claim_error (hs.fits pool p hpool) hblock
  exact ⟨_, _, step_claim_error hpool hrun name, rfl⟩

theorem gives_iff_demand_le (hs : s.Wf) (hpool : s.pool? pool = some p) :
    s.Gives pool size ↔ p.config.demand size ≤ maxLength := by
  refine ⟨fun hgives => ?_, gives_of_demand_le hs hpool⟩
  by_contra h
  exact hgives.not_refuses (refuses_of_lt_demand hs hpool (Nat.lt_of_not_le h))

theorem refuses_iff_lt_demand (hs : s.Wf) (hpool : s.pool? pool = some p) :
    s.Refuses pool size ↔ maxLength < p.config.demand size := by
  refine ⟨fun hrefuses => ?_, refuses_of_lt_demand hs hpool⟩
  by_contra h
  exact (gives_of_demand_le hs hpool (Nat.le_of_not_lt h)).not_refuses hrefuses

/-- A pool of a session from nothing gives what needs a block that can be made, and refuses all
else as out of range. It keeps the contract of an allocator exactly if its slabs can be made. -/
theorem available_iff {commands : List Command} {answers : List (Except Failure Answer)}
    (h : empty.run commands = (answers, s)) (hpool : s.pool? pool = some p) :
    (∀ size, (s.Gives pool size ↔ p.config.demand size ≤ maxLength) ∧
      (s.Refuses pool size ↔ maxLength < p.config.demand size)) ∧
    (s.Available pool ↔ p.config.poolSize ≤ maxLength) := by
  have hs : s.Wf := by
    have hkeeps := run_keeps wf_empty commands
    rw [h] at hkeeps
    exact hkeeps.wf
  refine ⟨fun size => ⟨gives_iff_demand_le hs hpool, refuses_iff_lt_demand hs hpool⟩,
    fun havailable => ?_, fun hmax => ⟨fun size => ?_, fun size => ?_⟩⟩
  · by_contra hlarge
    have hgives := (havailable.gives_iff 1).mpr (by decide)
    rw [gives_iff_demand_le hs hpool, PoolConfig.demand_one (Nat.lt_of_not_le hlarge)] at hgives
    exact hlarge hgives
  · rw [gives_iff_demand_le hs hpool, PoolConfig.demand_le_iff hmax]
  · rw [refuses_iff_lt_demand hs hpool, ← Nat.not_le, PoolConfig.demand_le_iff hmax, Nat.not_le]

/-- A pool whose slab has been full once. -/
theorem available_iff_rotated :
    let s := (empty.run [.newPool (some 16) (some "pool"), .make (.claim "pool" 5) none,
      .make (.claim "pool" 7) (some "b"), .make (.claim "pool" 0x80000000) none,
      .make (.claim "pool" 3) none]).2
    s.pool? "pool" = some ⟨⟨16⟩, some ⟨1, 8⟩, 2⟩ ∧ s.Available "pool" ∧ s.Gives "pool" 16 := by
  intro s
  have hpool : s.pool? "pool" = some ⟨⟨16⟩, some ⟨1, 8⟩, 2⟩ := by decide +kernel
  have havailable := (available_iff rfl hpool).2.mpr (by decide)
  exact ⟨hpool, havailable, (havailable.gives_iff 16).mpr (by decide)⟩

/-- The settings of a pool may ask for slabs that are one byte too large for a block. The pool then
refuses to give one byte. -/
theorem not_available_large_slabs :
    let s := (empty.run [.newPool (some 0x80000000) (some "pool")]).2
    PoolConfig.ofSize 0x80000000 = .ok ⟨0x80000000⟩ ∧ 1 ≤ maxLength ∧ s.Refuses "pool" 1 ∧
      ¬s.Gives "pool" 1 ∧ ¬s.Available "pool" := by
  intro s
  have hs : s.Wf := (run_keeps wf_empty _).wf
  have hpool : s.pool? "pool" = some (.new ⟨0x80000000⟩) := by decide +kernel
  have hrefuses : s.Refuses "pool" 1 := refuses_of_lt_demand hs hpool (by decide)
  have hgives : ¬s.Gives "pool" 1 := fun h => h.not_refuses hrefuses
  exact ⟨rfl, by decide, hrefuses, hgives, fun h => hgives ((h.gives_iff 1).mpr (by decide))⟩

end Session

end Octets
