import Mathlib.Data.Finset.Card
import Mathlib.Data.Finset.Dedup
import Octets.Proofs.Claim

/-!
# How a pool rotates its slabs

A sequence of requests to a pool that has served none. Whatever the sizes are, and also where the
settings ask for slabs larger than a block may be, the pool cuts its claims out of slabs at
multiples of eight bytes, counts every slab that it has cut from once, and is left as it was by a
request that is refused.

* `Pool.AsksForSlab`, `Pool.asksForSlab_iff`: which requests ask for a new slab;
* `Pool.serve`: the claims of a sequence of requests;
* `Pool.Served`, `Pool.Served.claim`: what one claim keeps;
* `Pool.serve_sound`: what holds after every sequence of requests.
-/

namespace Octets

variable {s t : Store} {p q : Pool} {size : Nat} {claims : List Window} {v : Window}

namespace Pool

/-! ## Requests for a new slab -/

/-- A request asks for a new slab if how it runs depends on how slabs are made. -/
def AsksForSlab (p : Pool) (s : Store) (size : Nat) : Prop :=
  ∃ make, (claimPlace make size).run (p, s) ≠ (claimPlace createSlab size).run (p, s)

/-- A slab lacks room where fewer bytes are left of its block than are requested. -/
theorem lacks_iff (hp : p.Fits s) :
    p.Lacks size ↔ ∀ slab, p.slab = some slab → s.capacity slab.block - slab.used < size := by
  refine forall₂_congr fun slab hslab => ?_
  have hfits := hp.slab slab hslab
  have hused := hfits.used_le
  rw [hfits.capacity_eq]
  omega

/-- The requests that ask for a new slab are those that are cut out of one and find none with
enough room. -/
theorem asksForSlab_iff (hp : p.Fits s) :
    p.AsksForSlab s size ↔ p.config.Pools size ∧ p.Lacks size := by
  constructor
  · rintro ⟨make, hne⟩
    by_cases hpools : p.config.Pools size
    · refine ⟨hpools, ?_⟩
      rcases run_takeSlab hp size with ⟨slab, _, _, htake⟩ | ⟨hlacks, _⟩
      · rw [run_claimPlace_pooled hpools, run_claimPlace_pooled hpools, cut, cut,
          EStateM.run_bind, EStateM.run_bind, htake, htake] at hne
        exact absurd rfl hne
      · exact hlacks
    · rw [run_claimPlace_own hpools, run_claimPlace_own hpools] at hne
      exact absurd rfl hne
  · rintro ⟨hpools, hlacks⟩
    -- No claim ends in a trap, so that one which does must have got it where slabs are made.
    refine ⟨throw (.trap .size), fun heq => ?_⟩
    have htrap : (claimPlace (throw (.trap .size)) size).run (p, s) =
        .error (.trap .size) ({ p with slab := none }, s) := by
      rcases run_takeSlab hp size with ⟨slab, hslab, hroom, _⟩ | ⟨_, htake⟩
      · exact absurd hroom (Nat.not_le.mpr (hlacks slab hslab))
      · rw [run_claimPlace_pooled hpools, cut, EStateM.run_bind, htake]
        rfl
    rw [htrap] at heq
    cases hblock : Argument.blockSize (p.config.demand size) with
    | ok _ =>
      obtain ⟨_, _, _, hrun, _⟩ := run_claimPlace_ok hp hblock
      rw [hrun] at heq
      cases heq
    | error f =>
      rw [run_claimPlace_error hp hblock] at heq
      cases heq

/-! ## Sequences of requests -/

/-- The claims that a sequence of requests is given, in order, and the pool and the store
afterwards. A request that is refused is given none. -/
def serve : List Nat → Pool × Store → List Window × Pool × Store
  | [], state => ([], state)
  | size :: rest, state =>
    match (claimPlace createSlab size).run state with
    | .ok (id, offset) state =>
      let (claims, state) := serve rest state
      (⟨id, offset, size⟩ :: claims, state)
    | .error _ state => serve rest state

/-- The slabs that claims were cut out of. -/
def slabBlocks (c : PoolConfig) (claims : List Window) : Finset Nat :=
  ((claims.filter fun v => c.Pools v.length).map Window.block).toFinset

theorem mem_slabBlocks {c : PoolConfig} {id : Nat} :
    id ∈ slabBlocks c claims ↔ ∃ v ∈ claims, c.Pools v.length ∧ v.block = id := by
  simp [slabBlocks, and_assoc]

/-- A claim that is cut out of a slab adds its block. -/
theorem slabBlocks_push {c : PoolConfig} (h : c.Pools v.length) :
    slabBlocks c (claims ++ [v]) = insert v.block (slabBlocks c claims) := by
  ext id
  simp [mem_slabBlocks, h, or_and_right, exists_or, or_comm, eq_comm]

/-- A claim of a block of its own adds none. -/
theorem slabBlocks_push_own {c : PoolConfig} (h : ¬c.Pools v.length) :
    slabBlocks c (claims ++ [v]) = slabBlocks c claims := by
  ext id
  simp [mem_slabBlocks, h, or_and_right, exists_or]

/-- A pool and the claims that it has given: where they lie, and what the pool knows of it. -/
structure Served (claims : List Window) (p : Pool) (s : Store) : Prop where
  sound : Sound claims p s
  used_mod : ∀ slab, p.slab = some slab → slab.used % 8 = 0
  inSlab : ∀ v ∈ claims, p.config.Pools v.length →
    v.offset % 8 = 0 ∧ s.capacity v.block = p.config.poolSize
  slabCount_eq : p.slabCount = (slabBlocks p.config claims).card
  slab_mem : ∀ slab, p.slab = some slab → slab.block ∈ slabBlocks p.config claims

/-- A pool that has served no request. -/
theorem served_new {config : PoolConfig} (h : config.Valid) (s : Store) :
    Served [] (.new config) s where
  sound := sound_new h s
  used_mod _ hslab := nomatch hslab
  inSlab _ hmem := nomatch hmem
  slabCount_eq := rfl
  slab_mem _ hslab := nomatch hslab

namespace Served

/-- In a store that extends the one before, the claims so far are where they were, and so are all
claims if one more is placed like them. -/
theorem inSlab_push (h : Served claims p s) (hst : s.Extends t)
    (hv : p.config.Pools v.length → v.offset % 8 = 0 ∧ t.capacity v.block = p.config.poolSize) :
    ∀ u ∈ claims ++ [v], p.config.Pools u.length →
      u.offset % 8 = 0 ∧ t.capacity u.block = p.config.poolSize := by
  intro u hu hpools
  rcases List.mem_append.mp hu with hu | hu
  · rw [hst.capacity_eq u.block (h.sound.held u hu).1]
    exact h.inSlab u hu hpools
  · obtain rfl := List.mem_singleton.mp hu
    exact hv hpools

/-- One more claim is placed as the others are, and is counted if it is the first of its slab. -/
theorem claim (h : Served claims p s) (hclaim : Claimed p s size v q t) :
    Served (claims ++ [v]) q t := by
  have hsound := (h.sound.claim hclaim).1
  cases hclaim with
  | block hsize =>
    have hgrows := Store.Extends.adopt s (List.replicate size 0)
    have hblocks := @slabBlocks_push_own claims ⟨s.blocks.length, 0, size⟩ p.config hsize
    have hplaced := h.inSlab_push hgrows (v := ⟨s.blocks.length, 0, size⟩)
      fun hpools => absurd hpools hsize
    refine ⟨hsound, h.used_mod, hplaced, ?_, fun slab hslab => ?_⟩
    · rw [hblocks]
      exact h.slabCount_eq
    · rw [hblocks]
      exact h.slab_mem slab hslab
  | @cut slab hsize hslab hroom =>
    have hblocks := @slabBlocks_push claims ⟨slab.block, slab.used, size⟩ p.config hsize
    -- The block of the claim is that of the slab, from which an earlier claim was cut.
    have hsame : insert slab.block (slabBlocks p.config claims) = slabBlocks p.config claims :=
      Finset.insert_eq_of_mem (h.slab_mem slab hslab)
    have hplaced := h.inSlab_push (.refl s) (v := ⟨slab.block, slab.used, size⟩)
      fun _ => ⟨h.used_mod slab hslab, (h.sound.fits.slab slab hslab).capacity_eq⟩
    refine ⟨hsound, fun other hother => ?_, hplaced, ?_, fun other hother => ?_⟩
    · cases hother
      exact align_mod _
    · rw [hblocks, hsame]
      exact h.slabCount_eq
    · cases hother
      rw [hblocks]
      exact Finset.mem_insert_self _ _
  | fresh hsize _ _ =>
    have hgrows := Store.Extends.adopt s (List.replicate p.config.poolSize 0)
    have hblocks := @slabBlocks_push claims ⟨s.blocks.length, 0, size⟩ p.config hsize
    have hnew : s.blocks.length ∉ slabBlocks p.config claims := by
      intro hmem
      obtain ⟨u, hu, _, hblock⟩ := mem_slabBlocks.mp hmem
      exact Nat.ne_of_lt (h.sound.held u hu).1 hblock
    have hplaced := h.inSlab_push hgrows (v := ⟨s.blocks.length, 0, size⟩)
      fun _ => ⟨rfl, s.capacity_zeros _⟩
    refine ⟨hsound, fun other hother => ?_, hplaced, ?_, fun other hother => ?_⟩
    · cases hother
      exact align_mod _
    · rw [hblocks, Finset.card_insert_of_notMem hnew, ← h.slabCount_eq]
    · cases hother
      rw [hblocks]
      exact Finset.mem_insert_self _ _

/-- A sequence of requests adds its claims. -/
theorem serve (h : Served claims p s) (sizes : List Nat) {new : List Window}
    (hserve : Pool.serve sizes (p, s) = (new, q, t)) :
    Served (claims ++ new) q t ∧ q.config = p.config := by
  induction sizes generalizing claims p s new with
  | nil =>
    cases hserve
    exact ⟨by rwa [List.append_nil], rfl⟩
  | cons size rest ih =>
    rw [Pool.serve] at hserve
    cases hblock : Argument.blockSize (p.config.demand size) with
    | error f =>
      rw [run_claimPlace_error h.sound.fits hblock] at hserve
      exact ih h hserve
    | ok _ =>
      obtain ⟨v, p', s', hrun, hclaim⟩ := run_claimPlace_ok h.sound.fits hblock
      rw [hrun] at hserve
      cases hrest : Pool.serve rest (p', s') with
      | mk later state =>
        simp only [hrest] at hserve
        obtain ⟨rfl, rfl⟩ := Prod.mk.inj hserve
        obtain ⟨hserved, hconfig⟩ := ih (h.claim hclaim) hrest
        rw [← hclaim.length_eq]
        rw [List.append_assoc] at hserved
        exact ⟨hserved, hconfig.trans hclaim.config_eq⟩

end Served

/-- The pool after any sequence of requests: the next claim begins at a multiple of eight bytes in
the slab; every claim that is cut out of a slab begins at such a place and lies in a block of the
size of slabs; no two claims share a byte; the slabs are counted; a further request asks for a slab
exactly if it is cut out of one and there is none, or fewer bytes are left of it than are requested;
and a further request that is refused changes nothing. -/
theorem serve_sound {config : PoolConfig} (hconfig : config.Valid) {sizes : List Nat}
    (h : serve sizes (.new config, s) = (claims, p, t)) :
    (p.offset % 8 = 0 ∧ p.offset ≤ config.poolSize) ∧
      (∀ v ∈ claims, config.Pools v.length →
        t.Holds v ∧ t.capacity v.block = config.poolSize ∧ v.offset % 8 = 0) ∧
      claims.Pairwise Window.Apart ∧
      p.slabCount = (slabBlocks config claims).card ∧
      (∀ size, p.AsksForSlab t size ↔ config.Pools size ∧
        ∀ slab, p.slab = some slab → t.capacity slab.block - slab.used < size) ∧
      ∀ size stop q u, (claimPlace createSlab size).run (p, t) = .error stop (q, u) →
        q = p ∧ u = t := by
  obtain ⟨hserved, rfl⟩ := (served_new hconfig s).serve sizes h
  rw [List.nil_append] at hserved
  have hfits := hserved.sound.fits
  refine ⟨?_, fun v hv hpools => ?_, hserved.sound.apart, hserved.slabCount_eq, fun size => ?_,
    fun size stop q u hrun => ?_⟩
  · unfold offset
    cases hslab : p.slab with
    | none => exact ⟨rfl, Nat.zero_le _⟩
    | some slab => exact ⟨hserved.used_mod slab hslab, (hfits.slab slab hslab).used_le⟩
  · obtain ⟨hoffset, hcapacity⟩ := hserved.inSlab v hv hpools
    exact ⟨hserved.sound.held v hv, hcapacity, hoffset⟩
  · rw [asksForSlab_iff hfits, lacks_iff hfits]
  · cases hblock : Argument.blockSize (p.config.demand size) with
    | ok _ =>
      obtain ⟨_, _, _, hok, _⟩ := run_claimPlace_ok hfits hblock
      rw [hok] at hrun
      nomatch hrun
    | error f =>
      rw [run_claimPlace_error hfits hblock] at hrun
      cases hrun
      exact ⟨rfl, rfl⟩

/-- Two claims that fill a slab, one for which there is no room in it, one that is refused, and two
with blocks of their own. -/
theorem serve_sound_refused :
    let claims : List Window := [⟨0, 0, 5⟩, ⟨0, 8, 3⟩, ⟨1, 0, 6⟩, ⟨2, 0, 8⟩, ⟨3, 0, 0⟩]
    let p : Pool := ⟨⟨16⟩, some ⟨1, 8⟩, 2⟩
    let t : Store := ⟨[.replicate 16 0, .replicate 16 0, .replicate 8 0, []]⟩
    serve [5, 3, 6, 0x80000000, 8, 0] (.new ⟨16⟩, .empty) = (claims, p, t) ∧
      claims.Pairwise Window.Apart ∧ p.slabCount = (slabBlocks ⟨16⟩ claims).card ∧
      ¬p.AsksForSlab t 7 := by
  intro claims p t
  have hserve : serve [5, 3, 6, 0x80000000, 8, 0] (.new ⟨16⟩, .empty) = (claims, p, t) := by
    decide +kernel
  obtain ⟨-, -, hapart, hcount, hasks, -⟩ :=
    @serve_sound .empty t p claims ⟨16⟩ (by decide) _ hserve
  refine ⟨hserve, hapart, hcount, fun hask => ?_⟩
  have hroom := ((hasks 7).mp hask).2 ⟨1, 8⟩ rfl
  exact absurd hroom (by decide)

end Pool

end Octets
