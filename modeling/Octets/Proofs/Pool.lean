import Octets.Pool.Claim
import Octets.Proofs.Construction

/-!
# Claims from a pool

The slab of a pool is a block of the size that the settings give, which is then the size of a block
that can be made, and no more of it is used than there is: the size is a multiple of eight, so that
the next multiple of eight after a claim that fits is not beyond the end. The room that is left is
therefore a difference that is not below zero, and every claim is a window of its block.
-/

namespace Octets

variable {Safe : Prop} {s t : Store} {p : Pool} {slab : Slab}

/-! ## Pools over a store -/

/-- The slab is a block of the given size, and is used at most to its end. -/
structure Slab.Fits (s : Store) (size : Nat) (slab : Slab) : Prop where
  held : slab.block < s.blocks.length
  capacity_eq : s.capacity slab.block = size
  used_le : slab.used ≤ size
  size_le : size ≤ maxLength

/-- The settings of the pool are valid, and its slab, if there is one, is a block of the size that
they give. -/
structure Pool.Fits (s : Store) (p : Pool) : Prop where
  valid : p.config.Valid
  slab : ∀ slab, p.slab = some slab → slab.Fits s p.config.poolSize

theorem Slab.Fits.extends {size : Nat} (h : slab.Fits s size) (hst : s.Extends t) :
    slab.Fits t size where
  held := Nat.lt_of_lt_of_le h.held hst.length_le
  capacity_eq := by rw [hst.capacity_eq slab.block h.held, h.capacity_eq]
  used_le := h.used_le
  size_le := h.size_le

theorem Pool.Fits.extends (h : p.Fits s) (hst : s.Extends t) : p.Fits t where
  valid := h.valid
  slab slab hslab := (h.slab slab hslab).extends hst

/-- A pool without a slab fits every store. -/
theorem Pool.fits_new {config : PoolConfig} (h : config.Valid) (s : Store) :
    (Pool.new config).Fits s where
  valid := h
  slab _ hslab := nomatch hslab

namespace Pool

/-- A pool and a store after a part of a claim: the store has grown, and the pool fits it. -/
def Kept (s : Store) (state : Pool × Store) : Prop := s.Extends state.2 ∧ state.1.Fits state.2

/-- What a slab must be for a claim of a size to be cut out of it. -/
def Cuttable (size : Nat) (slab : Slab) (state : Pool × Store) : Prop :=
  slab.Fits state.2 state.1.config.poolSize ∧ slab.used + size ≤ state.1.config.poolSize

/-! ## Claims -/

/-- The next multiple of eight is not beyond a multiple of eight. -/
theorem align_le {n size : Nat} (hle : n ≤ size) (hsize : size % 8 = 0) : align n ≤ size := by
  unfold align
  omega

/-- An action on the store leaves the pool as it is. -/
theorem ends_onStore {α : Type} {Post : α → Store → Prop} {action : Action Store α}
    (hkept : Kept s (p, t)) (h : Ends t.Extends Safe Post (action.run t)) :
    Ends (Kept s) Safe (fun a state => state.1 = p ∧ Post a state.2)
      ((onStore action).run (p, t)) := by
  obtain ⟨hst, hp⟩ := hkept
  simp only [onStore, Action.on, EStateM.run] at h ⊢
  cases hrun : action t with
  | ok a u =>
    rw [hrun] at h
    exact ⟨⟨hst.trans h.1, hp.extends h.1⟩, rfl, h.2⟩
  | error stop u =>
    rw [hrun] at h
    cases stop with
    | fault f => exact ⟨hst.trans h, hp.extends h⟩
    | trap _ => exact ⟨⟨hst.trans h.1, hp.extends h.1⟩, h.2⟩

/-- A new slab has room for every claim that is not larger than a slab. -/
theorem ends_createSlab {size : Nat} (hkept : Kept s (p, t)) (hsize : size ≤ p.config.poolSize) :
    Ends (Kept s) Safe (Cuttable size) (createSlab.run (p, t)) := by
  unfold createSlab
  rw [EStateM.run_bind, EStateM.run_get]
  refine Ends.bind (ends_onStore hkept (t.ends_allocate p.config.poolSize)) ?_
  rintro w ⟨q, u⟩ ⟨hu, hq⟩ ⟨rfl, ⟨hw, _⟩, hcap, hmax⟩
  have hfits : Slab.Fits u q.config.poolSize ⟨w.block, 0⟩ := ⟨hw.1, hcap, Nat.zero_le _, hmax⟩
  exact ⟨⟨hu, hq.valid, hq.slab⟩, hfits, by rwa [Nat.zero_add]⟩

/-- What is left of a slab is known without an overflow. -/
theorem run_remaining {size : Nat} {slab : Slab} (h : slab.Fits s size) :
    (remaining slab).run s = .ok (size - slab.used) s := by
  unfold remaining
  rw [EStateM.run_bind, EStateM.run_get]
  simp only [h.capacity_eq, difference_eq_ok h.used_le]
  rfl

/-- Where a pool has no slab, one is made. -/
theorem run_takeSlab_none (hslab : p.slab = none) (make : Action (Pool × Store) Slab)
    (size : Nat) (s : Store) :
    (takeSlab make size).run (p, s) = make.run ({ p with slab := none }, s) := by
  obtain ⟨config, taken, count⟩ := p
  cases hslab
  rfl

/-- The slab of a pool is out of it until what is left of it is known. -/
theorem run_takeSlab_some {slab : Slab} (hslab : p.slab = some slab)
    (make : Action (Pool × Store) Slab) (size : Nat) (s : Store) :
    (takeSlab make size).run (p, s) =
      EStateM.run (onStore (remaining slab) >>= fun rest => if size ≤ rest then pure slab else make)
        ({ p with slab := none }, s) := by
  obtain ⟨config, taken, count⟩ := p
  cases hslab
  rfl

/-- The slab that is taken has room for the claim: the old one is only taken if it has. -/
theorem ends_takeSlab {size : Nat} (hkept : Kept s (p, t)) (hsize : size ≤ p.config.poolSize) :
    Ends (Kept s) Safe (Cuttable size) ((takeSlab createSlab size).run (p, t)) := by
  have hst : s.Extends t := hkept.1
  have hp : p.Fits t := hkept.2
  have htaken : Kept s ({ p with slab := none }, t) := ⟨hst, hp.valid, fun _ h => by cases h⟩
  cases hslab : p.slab with
  | none =>
    rw [run_takeSlab_none hslab]
    exact ends_createSlab htaken hsize
  | some slab =>
    rw [run_takeSlab_some hslab]
    have hfits := hp.slab slab hslab
    have hused := hfits.used_le
    have hends : Ends t.Extends Safe
        (fun rest u => u = t ∧ rest = p.config.poolSize - slab.used) ((remaining slab).run t) := by
      rw [run_remaining hfits]
      exact ⟨.refl t, rfl, rfl⟩
    refine Ends.bind (ends_onStore htaken hends) ?_
    rintro rest ⟨q, u⟩ hstate ⟨hq, hu, hrest⟩
    obtain rfl : q = { p with slab := none } := hq
    obtain rfl : u = t := hu
    split
    · rename_i hroom
      have hend : slab.used + size ≤ p.config.poolSize := by omega
      exact ⟨hstate, hfits, hend⟩
    · -- There is not enough room, and the slab is given up for a new one.
      exact ends_createSlab hstate hsize

theorem ends_cut {size : Nat} (hkept : Kept s (p, t)) (hsize : size ≤ p.config.poolSize) :
    Ends (Kept s) Safe (fun place state => place.1 < state.2.blocks.length)
      ((cut createSlab size).run (p, t)) := by
  refine Ends.bind (ends_takeSlab hkept hsize) ?_
  rintro slab ⟨q, u⟩ ⟨hu, hq⟩ ⟨hfits, hroom⟩
  refine ⟨⟨hu, hq.valid, ?_⟩, hfits.held⟩
  rintro _ hslab
  cases hslab
  exact ⟨hfits.held, hfits.capacity_eq, align_le hroom hq.valid.2, hfits.size_le⟩

theorem ends_claimPlace (size : Nat) (hkept : Kept s (p, t)) :
    Ends (Kept s) Safe (fun place state => place.1 < state.2.blocks.length)
      ((claimPlace createSlab size).run (p, t)) := by
  unfold claimPlace
  split
  · refine Ends.bind (ends_onStore hkept (t.ends_wrap [])) ?_
    rintro w state hstate ⟨_, hw, _⟩
    exact ⟨hstate, hw.1⟩
  · rw [EStateM.run_bind, EStateM.run_get]
    simp only
    split
    · refine Ends.bind (ends_onStore hkept (t.ends_allocate size)) ?_
      rintro w state hstate ⟨_, ⟨hw, _⟩, _⟩
      exact ⟨hstate, hw.1⟩
    · rename_i hthreshold
      unfold PoolConfig.threshold at hthreshold
      exact ends_cut hkept (by omega)

/-- A claim is a window of the store afterwards. -/
theorem ends_claim (size : Nat) (hkept : Kept s (p, t)) :
    Ends (Kept s) Safe (fun v state => state.2.Holds v) ((claim size).run (p, t)) := by
  refine Ends.bind (ends_claimPlace size hkept) fun place state hstate hplace => ?_
  exact (ends_onStore hstate (Window.ends_create hplace _ _)).imp fun v state h => h.2.1

theorem ends_claimSized {size : Value Window} (hkept : Kept s (p, t))
    (hsize : ∀ v ∈ size.buffers, t.Holds v) :
    Ends (Kept s) Safe (fun v state => state.2.Holds v) ((claimSized size).run (p, t)) := by
  have hask : Ends t.Extends Safe (fun _ _ => True) ((size.ask Argument.size).run t) := by
    rw [Value.run_ask hsize]
    exact .of_outcome (.refl t) (fun _ => .lift _) fun _ _ => trivial
  refine Ends.bind (ends_onStore hkept hask) ?_
  rintro n ⟨q, u⟩ hstate _
  exact ends_claim n hstate

end Pool

end Octets
