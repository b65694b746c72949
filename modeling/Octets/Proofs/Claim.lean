import Mathlib.Data.List.Pairwise
import Octets.Proofs.Frame
import Octets.Proofs.Pool

/-!
# What a claim takes

A claim takes bytes that no claim has had before. What it does is said once (`Pool.Claimed`): it
makes a block of its own, or cuts the claim out of the slab at the place where the unused bytes
begin, or makes a new slab and cuts the claim out of its beginning. Everything else follows from
it and from the invariant of a pool and its claims (`Pool.Sound`): the claims lie apart from each
other, and the unused bytes of the slab are zeros that lie in none of them.

* `Pool.run_claim_ok`, `Pool.run_claim_error`: a claim is made if the block that it needs can be
  made, and else it is refused, and then nothing has changed.
* `Pool.Sound.claim`: the new claim shows zeros, and all others show what they showed.
* `Pool.Sound.write`: what is written into a claim shows in no other.
-/

namespace Octets

variable {s t : Store} {p q : Pool} {size : Nat}

/-! ## Windows that lie apart -/

/-- No byte of a block is in both windows. -/
def Window.Apart (v w : Window) : Prop :=
  v.block = w.block → v.offset + v.length ≤ w.offset ∨ w.offset + w.length ≤ v.offset

instance : Std.Symm Window.Apart where
  symm _ _ h hblock := (h hblock.symm).symm

theorem Window.apart_of_ne {v w : Window} (h : v.block ≠ w.block) : v.Apart w :=
  fun hblock => absurd hblock h

/-- What is written into a window does not show in one that lies apart from it. -/
theorem Store.read_write_of_apart {v w : Window} {new : Bytes} (hv : s.Holds v)
    (hnew : new.length = v.length) (hw : s.Holds w) (h : v.Apart w) :
    (s.write v new).read w = s.read w := by
  have hheld := (Extends.write hv hnew).holds hw
  apply List.ext_getElem?
  intro j
  by_cases hj : j < w.length
  · rw [getElem?_read_write hv hnew hw hj, if_neg]
    rintro ⟨hblock, hlow, hhigh⟩
    rcases h hblock.symm with hle | hle <;> omega
  · rw [List.getElem?_eq_none (by rw [length_read hheld]; omega),
      List.getElem?_eq_none (by rw [length_read hw]; omega)]

/-- A window onto zeros shows zeros. -/
theorem Store.read_eq_replicate {v : Window} (hv : s.Holds v)
    (h : ∀ i, v.offset ≤ i → i < v.offset + v.length → (s.block v.block)[i]? = some 0) :
    s.read v = List.replicate v.length 0 := by
  apply List.ext_getElem?
  intro i
  by_cases hi : i < v.length
  · rw [Window.getElem?_read s hi, h _ (by omega) (by omega), List.getElem?_replicate, if_pos hi]
  · rw [List.getElem?_eq_none (by rw [length_read hv]; omega),
      List.getElem?_eq_none (by rw [List.length_replicate]; omega)]

/-- The size of a new block of zeros. -/
theorem Store.capacity_zeros (s : Store) (count : Nat) :
    (s.adopt (List.replicate count 0)).2.capacity s.blocks.length = count := by
  rw [capacity, block_adopt_self, List.length_replicate]

/-- A window onto the beginning of a new block of zeros shows zeros. -/
theorem Store.zeros_adopt (s : Store) {count : Nat} (hsize : size ≤ count) :
    (s.adopt (List.replicate count 0)).2.Holds ⟨s.blocks.length, 0, size⟩ ∧
      (s.adopt (List.replicate count 0)).2.read ⟨s.blocks.length, 0, size⟩ =
        List.replicate size 0 := by
  have hblock := s.block_adopt_self (List.replicate count 0)
  have hheld : (s.adopt (List.replicate count 0)).2.Holds ⟨s.blocks.length, 0, size⟩ := by
    refine ⟨by simp [adopt], ?_⟩
    rw [capacity_zeros]
    show 0 + size ≤ count
    omega
  refine ⟨hheld, read_eq_replicate hheld fun i _ hi => ?_⟩
  have hi : i < 0 + size := hi
  rw [hblock, List.getElem?_replicate, if_pos (by omega)]

/-! ## Runs of claims -/

/-- Requests of this size are cut out of a slab. -/
def PoolConfig.Pools (c : PoolConfig) (size : Nat) : Prop := 0 < size ∧ size < c.threshold

instance (c : PoolConfig) (size : Nat) : Decidable (c.Pools size) := by
  unfold PoolConfig.Pools
  infer_instance

/-- The size of the block that a request may need: of a whole slab, where it is cut out of one. -/
def PoolConfig.demand (c : PoolConfig) (size : Nat) : Nat :=
  if c.Pools size then c.poolSize else size

/-- What is cut out of a slab is smaller than a slab. -/
theorem PoolConfig.Pools.le {c : PoolConfig} (h : c.Pools size) : size ≤ c.poolSize := by
  have hsize := h.2
  unfold PoolConfig.threshold at hsize
  omega

/-- Where slabs can be made, a request needs a block that can be made only if one of its own size
can. -/
theorem PoolConfig.blockSize_demand {c : PoolConfig} (hmax : c.poolSize ≤ maxLength) (size : Nat) :
    Argument.blockSize (c.demand size) = Argument.blockSize size := by
  unfold demand
  split
  · rename_i hpools
    have hle := hpools.le
    rw [Argument.blockSize_eq_ok hmax, Argument.blockSize_eq_ok (Nat.le_trans hle hmax)]
  · rfl

namespace Pool

/-- There is no slab with room for a claim. -/
def Lacks (p : Pool) (size : Nat) : Prop :=
  ∀ slab, p.slab = some slab → p.config.poolSize < slab.used + size

/-- A run on the store leaves the pool as it is. -/
theorem run_onStore {α : Type} (action : Action Store α) (p : Pool) (s : Store) :
    (onStore action).run (p, s) =
      match action.run s with
      | .ok a t => .ok a (p, t)
      | .error stop t => .error stop (p, t) := by
  simp only [onStore, Action.on, EStateM.run]
  cases action s <;> rfl

/-- A new slab is a block of zeros of the size that the settings give, where there can be one. -/
theorem run_createSlab (p : Pool) (s : Store) :
    createSlab.run (p, s) =
      match Argument.blockSize p.config.poolSize with
      | .ok _ => .ok ⟨s.blocks.length, 0⟩ ({ p with slabCount := p.slabCount + 1 },
          (s.adopt (List.replicate p.config.poolSize 0)).2)
      | .error f => .error (.fault f) (p, s) := by
  unfold createSlab
  rw [EStateM.run_bind, EStateM.run_get]
  simp only
  rw [EStateM.run_bind, run_onStore, Store.run_allocate]
  cases Argument.blockSize p.config.poolSize <;> rfl

/-- The slab that is taken is the old one, if it has room, and else it is made. -/
theorem run_takeSlab (hp : p.Fits s) (size : Nat) :
    (∃ slab, p.slab = some slab ∧ slab.used + size ≤ p.config.poolSize ∧
      ∀ make, (takeSlab make size).run (p, s) = .ok slab ({ p with slab := none }, s)) ∨
    (p.Lacks size ∧
      ∀ make, (takeSlab make size).run (p, s) = make.run ({ p with slab := none }, s)) := by
  cases hslab : p.slab with
  | none =>
    refine .inr ⟨fun slab h => ?_, fun make => run_takeSlab_none hslab make size s⟩
    rw [hslab] at h
    cases h
  | some slab =>
    have hfits := hp.slab slab hslab
    have hused := hfits.used_le
    have hremaining := run_remaining hfits
    by_cases hroom : size ≤ p.config.poolSize - slab.used
    · refine .inl ⟨slab, rfl, by omega, fun make => ?_⟩
      rw [run_takeSlab_some hslab]
      simp only [EStateM.run_bind, run_onStore, hremaining, if_pos hroom]
      rfl
    · refine .inr ⟨fun other hother => ?_, fun make => ?_⟩
      · rw [hslab] at hother
        cases hother
        omega
      · rw [run_takeSlab_some hslab]
        simp only [EStateM.run_bind, run_onStore, hremaining, if_neg hroom]

/-- A request that no slab serves runs in the same way however slabs are made. -/
theorem run_claimPlace_own (h : ¬p.config.Pools size) (make : Action (Pool × Store) Slab) :
    (claimPlace make size).run (p, s) =
      match Argument.blockSize size with
      | .ok _ => .ok (s.blocks.length, 0) (p, (s.adopt (List.replicate size 0)).2)
      | .error f => .error (.fault f) (p, s) := by
  unfold claimPlace
  by_cases hzero : size = 0
  · subst hzero
    rfl
  · have hlarge : p.config.threshold ≤ size := by
      by_contra hsmall
      exact h ⟨by omega, by omega⟩
    rw [if_neg hzero, EStateM.run_bind, EStateM.run_get]
    simp only [if_pos hlarge]
    rw [EStateM.run_bind, run_onStore, Store.run_allocate]
    cases Argument.blockSize size <;> rfl

/-- A request that is pooled is cut out of a slab. -/
theorem run_claimPlace_pooled (h : p.config.Pools size) (make : Action (Pool × Store) Slab) :
    (claimPlace make size).run (p, s) = (cut make size).run (p, s) := by
  obtain ⟨hpos, hsmall⟩ := h
  unfold claimPlace
  rw [if_neg (by omega), EStateM.run_bind, EStateM.run_get]
  simp only [if_neg (Nat.not_le.mpr hsmall)]

/-- What a claim of a size can do: the window that it gives, and the pool and the store
afterwards. -/
inductive Claimed (p : Pool) (s : Store) (size : Nat) : Window → Pool → Store → Prop where
  /-- A block of its own. -/
  | block (hsize : ¬p.config.Pools size) :
      Claimed p s size ⟨s.blocks.length, 0, size⟩ p (s.adopt (List.replicate size 0)).2
  /-- The first unused bytes of the slab. -/
  | cut {slab : Slab} (hsize : p.config.Pools size) (hslab : p.slab = some slab)
      (hroom : slab.used + size ≤ p.config.poolSize) :
      Claimed p s size ⟨slab.block, slab.used, size⟩
        { p with slab := some ⟨slab.block, align (slab.used + size)⟩ } s
  /-- The beginning of a new slab, where there is none with enough room. -/
  | fresh (hsize : p.config.Pools size) (hlacks : p.Lacks size)
      (hmax : p.config.poolSize ≤ maxLength) :
      Claimed p s size ⟨s.blocks.length, 0, size⟩
        ⟨p.config, some ⟨s.blocks.length, align size⟩, p.slabCount + 1⟩
        (s.adopt (List.replicate p.config.poolSize 0)).2

theorem Claimed.config_eq {v : Window} (h : Claimed p s size v q t) : q.config = p.config := by
  cases h <;> rfl

theorem Claimed.length_eq {v : Window} (h : Claimed p s size v q t) : v.length = size := by
  cases h <;> rfl

/-- A claim is placed where the block that it needs can be made. -/
theorem run_claimPlace_ok {u : Unit} (hp : p.Fits s)
    (h : Argument.blockSize (p.config.demand size) = .ok u) :
    ∃ v q t, (claimPlace createSlab size).run (p, s) = .ok (v.block, v.offset) (q, t) ∧
      Claimed p s size v q t := by
  unfold PoolConfig.demand at h
  by_cases hpools : p.config.Pools size
  · rw [if_pos hpools] at h
    rcases run_takeSlab hp size with ⟨slab, hslab, hroom, htake⟩ | ⟨hlacks, htake⟩
    · refine ⟨_, _, _, ?_, .cut hpools hslab hroom⟩
      rw [run_claimPlace_pooled hpools, cut, EStateM.run_bind, htake]
      rfl
    · have hplace : (claimPlace createSlab size).run (p, s) = .ok (s.blocks.length, 0)
          (⟨p.config, some ⟨s.blocks.length, align (0 + size)⟩, p.slabCount + 1⟩,
            (s.adopt (List.replicate p.config.poolSize 0)).2) := by
        rw [run_claimPlace_pooled hpools, cut, EStateM.run_bind, htake, run_createSlab, h]
        rfl
      rw [Nat.zero_add] at hplace
      exact ⟨_, _, _, hplace, .fresh hpools hlacks (Argument.blockSize_le h)⟩
  · rw [if_neg hpools] at h
    refine ⟨_, _, _, ?_, .block hpools⟩
    rw [run_claimPlace_own hpools, h]

/-- A claim is refused where the block that it needs cannot be made, and nothing has changed: if
slabs are too large for a block, there has never been one. -/
theorem run_claimPlace_error {f : Fault} (hp : p.Fits s)
    (h : Argument.blockSize (p.config.demand size) = .error f) :
    (claimPlace createSlab size).run (p, s) = .error (.fault f) (p, s) := by
  unfold PoolConfig.demand at h
  by_cases hpools : p.config.Pools size
  · rw [if_pos hpools] at h
    have hnone : p.slab = none := by
      cases hslab : p.slab with
      | none => rfl
      | some slab =>
        rw [Argument.blockSize_eq_ok (hp.slab slab hslab).size_le] at h
        nomatch h
    have htaken : { p with slab := none } = p := by rw [← hnone]
    rw [run_claimPlace_pooled hpools, cut, EStateM.run_bind]
    rcases run_takeSlab hp size with ⟨slab, hslab, _⟩ | ⟨_, htake⟩
    · rw [hnone] at hslab
      nomatch hslab
    · rw [htake, htaken, run_createSlab, h]
  · rw [if_neg hpools] at h
    rw [run_claimPlace_own hpools, h]

/-- What a claim gives lies in its block. -/
theorem Claimed.room {v : Window} (h : Claimed p s size v q t) (hp : p.Fits s) :
    v.offset + v.length ≤ t.capacity v.block := by
  cases h with
  | block _ => rw [s.capacity_zeros, Nat.zero_add]
  | cut _ hslab hroom => rwa [(hp.slab _ hslab).capacity_eq]
  | fresh hsize _ _ => rw [s.capacity_zeros, Nat.zero_add]; exact hsize.le

/-- A claim is made where the block that it needs can be made. -/
theorem run_claim_ok {u : Unit} (hp : p.Fits s)
    (h : Argument.blockSize (p.config.demand size) = .ok u) :
    ∃ v q t, (claim size).run (p, s) = .ok v (q, t) ∧ Claimed p s size v q t := by
  obtain ⟨v, q, t, hplace, hclaim⟩ := run_claimPlace_ok hp h
  have hroom := hclaim.room hp
  have hlength := hclaim.length_eq
  refine ⟨v, q, t, ?_, hclaim⟩
  unfold claim
  rw [EStateM.run_bind, hplace]
  simp only
  rw [run_onStore, Window.run_create, if_neg (by omega), if_neg (by omega), ← hlength]

/-- A claim is refused as the block is that it needs, and nothing has changed. -/
theorem run_claim_error {f : Fault} (hp : p.Fits s)
    (h : Argument.blockSize (p.config.demand size) = .error f) :
    (claim size).run (p, s) = .error (.fault f) (p, s) := by
  unfold claim
  rw [EStateM.run_bind, run_claimPlace_error hp h]

/-! ## Claims of a pool -/

/-- The unused bytes of the slab are zeros, and the claims in its block end before them. -/
structure Unused (claims : List Window) (s : Store) (slab : Slab) : Prop where
  zero : ∀ i, slab.used ≤ i → i < s.capacity slab.block → (s.block slab.block)[i]? = some 0
  ends_le : ∀ v ∈ claims, v.block = slab.block → v.offset + v.length ≤ slab.used

/-- A pool and the claims that it has given: they are windows of the store that lie apart from each
other, and none of them takes unused bytes of the slab. -/
structure Sound (claims : List Window) (p : Pool) (s : Store) : Prop where
  fits : p.Fits s
  held : ∀ v ∈ claims, s.Holds v
  apart : claims.Pairwise Window.Apart
  unused : ∀ slab, p.slab = some slab → Unused claims s slab

/-- A pool without claims. -/
theorem sound_new {config : PoolConfig} (h : config.Valid) (s : Store) :
    Sound [] (.new config) s where
  fits := fits_new h s
  held _ hmem := nomatch hmem
  apart := .nil
  unused _ hslab := nomatch hslab

namespace Sound

variable {claims : List Window} {v : Window}

/-- A new block is in no claim, and is not the slab. -/
theorem adopt (h : Sound claims p s) (content : Bytes) : Sound claims p (s.adopt content).2 where
  fits := h.fits.extends (.adopt s content)
  held u hu := (Store.Extends.adopt s content).holds (h.held u hu)
  apart := h.apart
  unused slab hslab := by
    have hblock := (h.fits.slab slab hslab).held
    obtain ⟨hzero, hends⟩ := h.unused slab hslab
    refine ⟨?_, hends⟩
    rw [Store.capacity, Store.block_adopt hblock]
    exact hzero

/-- The pool goes on with a slab whose unused bytes are in no claim. -/
theorem useSlab (h : Sound claims p s) {slab : Slab} (hfits : slab.Fits s p.config.poolSize)
    (hunused : Unused claims s slab) (count : Nat) :
    Sound claims ⟨p.config, some slab, count⟩ s where
  fits := ⟨h.fits.valid, fun other hother => by cases hother; exact hfits⟩
  held := h.held
  apart := h.apart
  unused other hother := by
    cases hother
    exact hunused

/-- One more claim, which lies apart from the others and takes no unused bytes of the slab. -/
theorem push (h : Sound claims p s) (hv : s.Holds v) (hapart : ∀ u ∈ claims, u.Apart v)
    (hends : ∀ slab, p.slab = some slab → v.block = slab.block →
      v.offset + v.length ≤ slab.used) : Sound (claims ++ [v]) p s where
  fits := h.fits
  held u hu := by
    rcases List.mem_append.mp hu with hu | hu
    · exact h.held u hu
    · obtain rfl := List.mem_singleton.mp hu
      exact hv
  apart := List.pairwise_append.mpr ⟨h.apart, List.pairwise_singleton _ v, fun u hu w hw => by
    obtain rfl := List.mem_singleton.mp hw
    exact hapart u hu⟩
  unused slab hslab := by
    obtain ⟨hzero, hbefore⟩ := h.unused slab hslab
    refine ⟨hzero, fun u hu => ?_⟩
    rcases List.mem_append.mp hu with hu | hu
    · exact hbefore u hu
    · obtain rfl := List.mem_singleton.mp hu
      exact hends slab hslab

/-- No claim lies in a new block. -/
theorem apart_new (h : Sound claims p s) {u : Window} (hu : u ∈ claims) :
    u.Apart ⟨s.blocks.length, 0, size⟩ :=
  Window.apart_of_ne (Nat.ne_of_lt (h.held u hu).1)

/-- A claim lies apart from all that were made before, shows zeros, and changes no other one. -/
theorem claim (h : Sound claims p s) (hclaim : Claimed p s size v q t) :
    Sound (claims ++ [v]) q t ∧ t.read v = List.replicate size 0 ∧
      ∀ u ∈ claims, t.read u = s.read u := by
  cases hclaim with
  | block _ =>
    obtain ⟨hheld, hread⟩ := s.zeros_adopt (Nat.le_refl size)
    refine ⟨(h.adopt _).push hheld (fun u hu => h.apart_new hu) fun slab hslab hblock => ?_,
      hread, fun u hu => Store.read_adopt (h.held u hu).1 _⟩
    exact absurd hblock (Nat.ne_of_gt (h.fits.slab slab hslab).held)
  | @cut slab _ hslab hroom =>
    obtain ⟨hblock, hcapacity, hused, hmax⟩ := h.fits.slab slab hslab
    obtain ⟨hzero, hends⟩ := h.unused slab hslab
    have halign := le_align (slab.used + size)
    have hlast := align_le hroom h.fits.valid.2
    have hheld : s.Holds ⟨slab.block, slab.used, size⟩ := ⟨hblock, by rw [hcapacity]; exact hroom⟩
    -- The claim takes the bytes from the old beginning of the unused ones to before the new one.
    have hfits : Slab.Fits s p.config.poolSize ⟨slab.block, align (slab.used + size)⟩ :=
      ⟨hblock, hcapacity, hlast, hmax⟩
    have hunused : Unused claims s ⟨slab.block, align (slab.used + size)⟩ := by
      refine ⟨fun i hi => hzero i ?_, fun u hu hsame => ?_⟩
      · have hi : align (slab.used + size) ≤ i := hi
        omega
      · have hbefore := hends u hu hsame
        show _ ≤ align (slab.used + size)
        omega
    refine ⟨(h.useSlab hfits hunused _).push hheld ?_ ?_, ?_, fun u hu => rfl⟩
    · exact fun u hu hsame => .inl (hends u hu hsame)
    · intro other hother _
      cases hother
      exact halign
    · refine Store.read_eq_replicate hheld fun i hlow hhigh => hzero i hlow ?_
      have hhigh : i < slab.used + size := hhigh
      rw [hcapacity]
      omega
  | fresh hpools _ hmax =>
    have hsize := hpools.le
    obtain ⟨hheld, hread⟩ := s.zeros_adopt hsize
    have hblock := s.block_adopt_self (List.replicate p.config.poolSize 0)
    have hcapacity := s.capacity_zeros p.config.poolSize
    have hfits : Slab.Fits (s.adopt (List.replicate p.config.poolSize 0)).2 p.config.poolSize
        ⟨s.blocks.length, align size⟩ :=
      ⟨hheld.1, hcapacity, align_le hsize h.fits.valid.2, hmax⟩
    have hunused : Unused claims (s.adopt (List.replicate p.config.poolSize 0)).2
        ⟨s.blocks.length, align size⟩ := by
      refine ⟨fun i _ hi => ?_, fun u hu hsame => ?_⟩
      · rw [hcapacity] at hi
        rw [hblock, List.getElem?_replicate, if_pos hi]
      · exact absurd hsame (Nat.ne_of_lt (h.held u hu).1)
    refine ⟨((h.adopt _).useSlab hfits hunused _).push hheld
      (fun u hu => h.apart_new hu) ?_, hread, fun u hu => Store.read_adopt (h.held u hu).1 _⟩
    intro slab hslab _
    cases hslab
    show 0 + size ≤ align size
    rw [Nat.zero_add]
    exact le_align size

/-- What is written into a claim shows in no other one, and in no unused byte. -/
theorem write (h : Sound claims p s) {new : Bytes} (hv : v ∈ claims)
    (hnew : new.length = v.length) :
    Sound claims p (s.write v new) ∧ ∀ u ∈ claims, u ≠ v → (s.write v new).read u = s.read u := by
  have hheld := h.held v hv
  have hgrows := Store.Extends.write hheld hnew
  have hcap := hheld.2
  unfold Store.capacity at hcap
  refine ⟨⟨h.fits.extends hgrows, fun u hu => hgrows.holds (h.held u hu), h.apart, ?_⟩, ?_⟩
  · intro slab hslab
    obtain ⟨hzero, hends⟩ := h.unused slab hslab
    refine ⟨fun i hlow hhigh => ?_, hends⟩
    rw [Store.capacity_write hheld hnew] at hhigh
    rw [Store.block_write]
    split
    · rename_i hsame
      have hbefore := hends v hv hsame.1
      rw [hsame.1] at hcap
      rw [Bytes.getElem?_overwrite (by omega), if_neg (by omega)]
      exact hzero i hlow hhigh
    · exact hzero i hlow hhigh
  · intro u hu hne
    have hapart := h.apart.forall hv hu (Ne.symm hne)
    exact Store.read_write_of_apart hheld hnew (h.held u hu) hapart

end Sound

end Pool

end Octets
