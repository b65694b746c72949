import Octets.Proofs.Message
import Octets.Proofs.Pool
import Octets.Proofs.Refinement
import Octets.Session

/-!
# Sessions keep their windows

Every window that a session has made lies in its block for the rest of the session: a block never
changes its size, and nothing makes a window that does not lie in its block. In such a session no
command ends in a trap, as long as no block has more than `maxLength` bytes.

* `Session.Wf` — the names of a session stand for windows and pools of its store;
* `Session.step_advances` — what one command does to a session;
* `Session.run_advances` — what a sequence of commands does.
-/

namespace Octets

variable {α β ω ω' : Type}

/-! ## Names of arguments -/

section

variable {f : ω → Option ω'} {P : ω' → Prop}

/-- What holds of all that names stand for holds of the buffers of a resolved argument. -/
theorem Value.of_mapM? (hf : ∀ x w, f x = some w → P w) {v : Value ω} {v' : Value ω'}
    (h : v.mapM? f = some v') : ∀ w ∈ v'.buffers, P w := by
  cases v with
  | buffer x =>
    obtain ⟨y, hy, rfl⟩ := Option.map_eq_some_iff.mp h
    simpa [buffers] using hf x y hy
  | _ =>
    cases h
    intro w hw
    cases hw

theorem Query.of_mapM? (hf : ∀ x w, f x = some w → P w) {q : Query ω} {q' : Query ω'}
    (h : q.mapM? f = some q') : ∀ w ∈ q'.buffers, P w := by
  have hvalue : ∀ (v : Value ω) (v' : Value ω'), v.mapM? f = some v' → ∀ w ∈ v'.buffers, P w :=
    fun _ _ => Value.of_mapM? hf
  cases q <;>
    simp only [mapM?, Option.bind_eq_bind, Option.bind_eq_some_iff, Option.pure_def,
      Option.some.injEq] at h
  all_goals grind [buffers]

theorem Edit.of_mapM? (hf : ∀ x w, f x = some w → P w) {e : Edit ω} {e' : Edit ω'}
    (h : e.mapM? f = some e') : ∀ w ∈ e'.buffers, P w := by
  have hvalue : ∀ (v : Value ω) (v' : Value ω'), v.mapM? f = some v' → ∀ w ∈ v'.buffers, P w :=
    fun _ _ => Value.of_mapM? hf
  cases e <;>
    simp only [mapM?, Option.bind_eq_bind, Option.bind_eq_some_iff, Option.pure_def,
      Option.some.injEq] at h
  all_goals grind [buffers]

variable {g : ω → ω'}

/-- Where all its buffers stand for something, an argument is resolved. -/
theorem Value.mapM?_eq_some {v : Value ω} (h : ∀ x ∈ v.buffers, f x = some (g x)) :
    v.mapM? f = some (v.map g) := by
  cases v with
  | buffer x => simp [mapM?, map, h x (by simp [buffers])]
  | _ => rfl

theorem Query.mapM?_eq_some {q : Query ω} (h : ∀ x ∈ q.buffers, f x = some (g x)) :
    q.mapM? f = some (q.map g) := by
  have hvalue : ∀ v : Value ω, (∀ x ∈ v.buffers, f x = some (g x)) → v.mapM? f = some (v.map g) :=
    fun _ => Value.mapM?_eq_some
  cases q <;>
    simp only [mapM?, map, Option.bind_eq_bind, Option.bind_eq_some_iff, Option.pure_def,
      Option.some.injEq]
  all_goals grind [buffers]

theorem Edit.mapM?_eq_some {e : Edit ω} (h : ∀ x ∈ e.buffers, f x = some (g x)) :
    e.mapM? f = some (e.map g) := by
  have hvalue : ∀ v : Value ω, (∀ x ∈ v.buffers, f x = some (g x)) → v.mapM? f = some (v.map g) :=
    fun _ => Value.mapM?_eq_some
  cases e <;>
    simp only [mapM?, map, Option.bind_eq_bind, Option.bind_eq_some_iff, Option.pure_def,
      Option.some.injEq]
  all_goals grind [buffers]

/-- Where one of its buffers stands for nothing, it is not. -/
theorem Value.mapM?_eq_none {v : Value ω} {x : ω} (hx : x ∈ v.buffers) (h : f x = none) :
    v.mapM? f = none := by
  cases v with
  | buffer y =>
    simp only [buffers, List.mem_singleton] at hx
    subst hx
    simp [mapM?, h]
  | _ => cases hx

theorem Query.mapM?_eq_none {q : Query ω} {x : ω} (hx : x ∈ q.buffers) (h : f x = none) :
    q.mapM? f = none := by
  have hvalue : ∀ v : Value ω, x ∈ v.buffers → v.mapM? f = none :=
    fun _ hv => Value.mapM?_eq_none hv h
  cases q <;>
    simp only [mapM?, Option.bind_eq_bind, Option.bind_eq_none_iff, Option.pure_def]
  all_goals grind [buffers]

theorem Edit.mapM?_eq_none {e : Edit ω} {x : ω} (hx : x ∈ e.buffers) (h : f x = none) :
    e.mapM? f = none := by
  have hvalue : ∀ v : Value ω, x ∈ v.buffers → v.mapM? f = none :=
    fun _ hv => Value.mapM?_eq_none hv h
  cases e <;>
    simp only [mapM?, Option.bind_eq_bind, Option.bind_eq_none_iff, Option.pure_def]
  all_goals grind [buffers]

end

/-! ## Resolving names -/

/-- A computation on names gives what has a property, or fails, and not in a trap. -/
def Resolves (P : α → Prop) : Except Failure α → Prop
  | .ok a => P a
  | .error failure => ∀ trap, failure ≠ .trap trap

namespace Resolves

variable {P : α → Prop} {Q : β → Prop} {r : Except Failure α}

theorem imp {P' : α → Prop} (hr : Resolves P r) (himp : ∀ a, P a → P' a) : Resolves P' r := by
  cases r with
  | ok a => exact himp a hr
  | error failure => exact hr

theorem bind {k : α → Except Failure β} (hr : Resolves P r) (hk : ∀ a, P a → Resolves Q (k a)) :
    Resolves Q (r >>= k) := by
  cases r with
  | ok a => exact hk a hr
  | error failure => exact hr

/-- All items of a list are resolved, or none is. -/
theorem mapM {f : β → Except Failure α} (hf : ∀ b, Resolves P (f b)) (items : List β) :
    Resolves (fun results => ∀ a ∈ results, P a) (items.mapM f) := by
  induction items with
  | nil => exact fun a ha => nomatch ha
  | cons b rest ih =>
    rw [List.mapM_cons]
    refine (hf b).bind fun a ha => ih.bind fun results hresults => ?_
    intro c hc
    rcases List.mem_cons.mp hc with rfl | hc
    · exact ha
    · exact hresults c hc

end Resolves

namespace Maker

/-- The buffer of which a maker gives a part. -/
def source? : Maker → Option Name
  | .share source _ _ => some source
  | .window source _ _ => some source
  | .subarray source _ _ => some source
  | .slice source _ _ => some source
  | _ => none

/-- The maker puts bytes into a block of their own. -/
def makesBlock (m : Maker) : Bool :=
  match m with
  | .sizedClaim _ _ => false
  | .claim _ _ => false
  | m => m.source?.isNone

end Maker

namespace Session

/-- The names of a session stand for windows and pools of its store. -/
structure Wf (s : Session) : Prop where
  held : ∀ name w, s.window? name = some w → s.store.Holds w
  fits : ∀ name p, s.pool? name = some p → p.Fits s.store

variable {s : Session}

theorem wf_empty : empty.Wf where
  held _ _ h := nomatch h
  fits _ _ h := nomatch h

/-- The windows and pools of a session are so in a store that extends that of the session. -/
theorem Wf.extends {store : Store} (hs : s.Wf) (h : s.store.Extends store) :
    Wf { s with store } where
  held name w hw := h.holds (hs.held name w hw)
  fits name p hp := (hs.fits name p hp).extends h

theorem Wf.bind {w : Window} (hs : s.Wf) (hw : s.store.Holds w) (name : Option Name) :
    (s.bind name w).Wf := by
  cases name with
  | none => exact hs
  | some name =>
    refine ⟨fun other v hv => ?_, hs.fits⟩
    by_cases hother : other = name
    · subst hother
      rw [window?, Session.bind, lookup_insert_self] at hv
      cases hv
      exact hw
    · rw [window?, Session.bind, lookup_insert_of_ne hother] at hv
      exact hs.held other v hv

theorem Wf.insertPool {p : Pool} (hs : s.Wf) (hp : p.Fits s.store) (name : Name) :
    Wf { s with pools := insert name p s.pools } := by
  refine ⟨hs.held, fun other q hq => ?_⟩
  by_cases hother : other = name
  · subst hother
    rw [pool?, lookup_insert_self] at hq
    cases hq
    exact hp
  · rw [pool?, lookup_insert_of_ne hother] at hq
    exact hs.fits other q hq

/-! ## Commands -/

theorem resolves_window (hs : s.Wf) (name : Name) :
    Resolves (fun w => s.window? name = some w ∧ s.store.Holds w) (s.window name) := by
  unfold window
  split
  · rename_i w hw
    exact ⟨hw, hs.held name w hw⟩
  · exact fun trap h => nomatch h

theorem resolves_held (hs : s.Wf) (name : Name) : Resolves s.store.Holds (s.window name) :=
  (resolves_window hs name).imp fun _ hw => hw.2

theorem resolves_argument (hs : s.Wf) (v : Argument.Named) :
    Resolves (fun v => ∀ w ∈ v.buffers, s.store.Holds w) (s.argument v) := by
  unfold argument
  split
  · rename_i v' hv'
    exact Value.of_mapM? hs.held hv'
  · split <;> exact fun trap h => nomatch h

/-- A session before and after a command, and what the command gives: the session stands, its store
has grown, there is no trap as long as no block is too large, and what is given has a property. -/
structure Advances (s : Session) (Post : α → Store → Prop) (result : Except Failure α)
    (t : Session) : Prop where
  wf : t.Wf
  grows : s.store.Extends t.store
  noTrap : s.store.Bounded → ∀ trap, result ≠ .error (.trap trap)
  post : ∀ a, result = .ok a → Post a t.store

namespace Advances

variable {Post : α → Store → Prop}

/-- A command that fails before it does anything. -/
theorem of_failure (hs : s.Wf) {failure : Failure} (h : ∀ trap, failure ≠ .trap trap) :
    Advances s Post (.error failure) s where
  wf := hs
  grows := .refl s.store
  noTrap _ trap heq := h trap (Except.error.inj heq)
  post _ heq := nomatch heq

/-- An action on the store, whose names are resolved. -/
theorem carryOut (hs : s.Wf) {p : Except Failure (Action Store α)}
    (hp : Resolves (fun p => Ends s.store.Extends s.store.Bounded Post (p.run s.store)) p) :
    Advances s Post (s.carryOut p).1 (s.carryOut p).2 := by
  cases p with
  | error failure => exact of_failure hs hp
  | ok p =>
    have hends : Ends s.store.Extends s.store.Bounded Post (p.run s.store) := hp
    unfold Session.carryOut
    simp only
    cases hrun : p.run s.store with
    | ok a store =>
      rw [hrun] at hends
      refine ⟨hs.extends hends.1, hends.1, fun _ _ h => (nomatch h), fun b hb => ?_⟩
      cases hb
      exact hends.2
    | error stop store =>
      rw [hrun] at hends
      cases stop with
      | fault f =>
        -- What was done before the fault stays done, and the session stands in what is left.
        exact ⟨hs.extends hends, hends, fun _ _ h => (nomatch h), fun _ h => (nomatch h)⟩
      | trap t =>
        exact ⟨hs.extends hends.1, hends.1, fun hsafe => absurd hsafe hends.2,
          fun _ h => (nomatch h)⟩

/-- An action on a pool and on the store. -/
theorem carryOutOn (hs : s.Wf) (name : Name) {p : Except Failure (Action (Pool × Store) α)}
    (hp : Resolves (fun p => ∀ pool, pool.Fits s.store →
      Ends (Pool.Kept s.store) s.store.Bounded (fun a state => Post a state.2)
        (p.run (pool, s.store))) p) :
    Advances s Post (s.carryOutOn name p).1 (s.carryOutOn name p).2 := by
  cases p with
  | error failure => exact of_failure hs hp
  | ok p =>
    unfold Session.carryOutOn
    cases hpool : s.pool? name with
    | none => exact of_failure hs fun _ h => (nomatch h)
    | some pool =>
      have hends := hp pool (hs.fits name pool hpool)
      simp only
      cases hrun : p.run (pool, s.store) with
      | ok a state =>
        rw [hrun] at hends
        obtain ⟨⟨hgrows, hfits⟩, hpost⟩ := hends
        refine ⟨(hs.extends hgrows).insertPool hfits name, hgrows, fun _ _ h => (nomatch h),
          fun b hb => ?_⟩
        cases hb
        exact hpost
      | error stop state =>
        rw [hrun] at hends
        cases stop with
        | fault f =>
          obtain ⟨hgrows, hfits⟩ := hends
          exact ⟨(hs.extends hgrows).insertPool hfits name, hgrows, fun _ _ h => (nomatch h),
            fun _ h => (nomatch h)⟩
        | trap t =>
          obtain ⟨⟨hgrows, hfits⟩, hunsafe⟩ := hends
          exact ⟨(hs.extends hgrows).insertPool hfits name, hgrows,
            fun hsafe => absurd hsafe hunsafe, fun _ h => (nomatch h)⟩

end Advances

/-! ## Making buffers -/

/-- What a maker gives in a session: a window of the store afterwards, in the block of the buffer of
which it is a part, or in a new block. -/
structure Made (s : Session) (m : Maker) (v : Window) (store : Store) : Prop where
  holds : store.Holds v
  shares : ∀ name, m.source? = some name → ∃ w, s.window? name = some w ∧ v.block = w.block
  isNew : m.makesBlock = true → v.block = s.store.blocks.length

/-- A maker that puts its bytes into a new block. -/
theorem ends_made_new {m : Maker} (hsource : m.source? = none)
    {r : EStateM.Result Stop Store Window}
    (h : Ends s.store.Extends s.store.Bounded (IsNew s.store) r) :
    Ends s.store.Extends s.store.Bounded (s.Made m) r :=
  h.imp fun v store hv => ⟨hv.1, fun name hname => by simp [hsource] at hname, fun _ => hv.2⟩

/-- A maker that gives a part of a buffer or of its block. -/
theorem ends_made_part {m : Maker} {name : Name} {w : Window} (hsource : m.source? = some name)
    (hnew : m.makesBlock = false) (hw : s.window? name = some w)
    {r : EStateM.Result Stop Store Window}
    (h : Ends s.store.Extends s.store.Bounded
      (fun v store => store.Holds v ∧ v.block = w.block) r) :
    Ends s.store.Extends s.store.Bounded (s.Made m) r := by
  refine h.imp fun v store hv => ⟨hv.1, fun other hother => ?_, fun hblock => ?_⟩
  · rw [hsource] at hother
    cases hother
    exact ⟨w, hw, hv.2⟩
  · rw [hnew] at hblock
    cases hblock

theorem resolves_maker (hs : s.Wf) (m : Maker) :
    Resolves (fun p => Ends s.store.Extends s.store.Bounded (s.Made m) (p.run s.store))
      (s.maker m) := by
  cases m with
  | ofBytes content => exact ends_made_new rfl (s.store.ends_wrap content)
  | ofText text encoding =>
    exact (resolves_argument hs encoding).bind fun e he =>
      ends_made_new rfl (Window.ends_ofText text he)
  | ofValues values =>
    exact (Resolves.mapM (resolves_argument hs) values).bind fun vs hvs =>
      ends_made_new rfl (Window.ends_ofValues hvs)
  | ofJson text =>
    simp only [maker]
    cases Bytes.ofJson text with
    | ok content => exact ends_made_new rfl (s.store.ends_wrap content)
    | error f => exact fun trap h => (nomatch h)
  | filled size value encoding =>
    exact (resolves_argument hs size).bind fun n hn =>
      (resolves_argument hs value).bind fun v hv =>
        (resolves_argument hs encoding).bind fun e he =>
          ends_made_new rfl (Window.ends_filled hn hv he)
  | copyOf source =>
    exact (resolves_window hs source).bind fun w hw => ends_made_new rfl (Window.ends_copyOf hw.2)
  | concat parts totalLength =>
    exact (Resolves.mapM (resolves_held hs) parts).bind fun ws hws =>
      (resolves_argument hs totalLength).bind fun n hn =>
        ends_made_new rfl (Window.ends_concat hws hn)
  | sized size =>
    exact (resolves_argument hs size).bind fun n hn => ends_made_new rfl (Window.ends_sized hn)
  | block size =>
    exact ends_made_new rfl ((s.store.ends_allocate size).imp fun _ _ h => h.1)
  | share source offset length =>
    exact (resolves_window hs source).bind fun w hw =>
      (resolves_argument hs offset).bind fun o ho =>
        (resolves_argument hs length).bind fun n hn =>
          ends_made_part rfl rfl hw.1 (Window.ends_share hw.2.1 ho hn)
  | window source offset length =>
    exact (resolves_window hs source).bind fun w hw =>
      ends_made_part rfl rfl hw.1 (Window.ends_create hw.2.1 offset length)
  | subarray source start stop =>
    exact (resolves_window hs source).bind fun w hw =>
      (resolves_argument hs start).bind fun first hfirst =>
        (resolves_argument hs stop).bind fun last hlast =>
          ends_made_part rfl rfl hw.1 (Window.ends_subarray hw.2 hfirst hlast)
  | slice source start stop =>
    exact (resolves_window hs source).bind fun w hw =>
      ends_made_part rfl rfl hw.1 (Window.ends_aliased hw.2 start stop)
  | sizedClaim pool size => exact fun trap h => (nomatch h)
  | claim pool size => exact fun trap h => (nomatch h)

theorem make_advances (hs : s.Wf) (m : Maker) :
    Advances s (s.Made m) (s.make m).1 (s.make m).2 := by
  unfold make
  split
  · rename_i pool size
    refine .carryOutOn hs pool fun p hp => ?_
    exact (Pool.ends_claim size ⟨.refl _, hp⟩).imp fun v state hv =>
      ⟨hv, fun name h => (nomatch h), fun h => (nomatch h)⟩
  · rename_i pool size
    have hsize := resolves_argument hs size
    refine .carryOutOn hs pool ?_
    cases hargument : s.argument size with
    | error failure =>
      rw [hargument] at hsize
      exact hsize
    | ok n =>
      rw [hargument] at hsize
      intro p hp
      exact (Pool.ends_claimSized ⟨.refl _, hp⟩ hsize).imp fun v state hv =>
        ⟨hv, fun name h => (nomatch h), fun h => (nomatch h)⟩
  · exact .carryOut hs (resolves_maker hs m)

/-! ## Queries and edits -/

theorem resolves_extent (hs : s.Wf) (name : Name) (extent : Extent) :
    Resolves s.store.Holds (s.extent name extent) := by
  cases extent with
  | shown => exact resolves_held hs name
  | block =>
    exact (resolves_held hs name).bind fun w hw => ⟨hw.1, by simp [Store.whole]⟩

theorem resolves_query (hs : s.Wf) (name : Name) (extent : Extent) (q : Query Name) :
    Resolves (fun p => Ends s.store.Extends s.store.Bounded (fun _ _ => True) (p.run s.store))
      (s.query name extent q) := by
  refine (resolves_extent hs name extent).bind fun w hw => ?_
  split
  · rename_i q' hq'
    have hheld := Query.of_mapM? hs.held hq'
    show Ends _ _ _ ((q'.ask w).run s.store)
    rw [q'.run_ask hw hheld]
    refine .of_outcome (.refl _) (fun hsafe => ?_) fun _ _ => trivial
    refine Query.noTrap_answer _ (hsafe.length_read_le hw) fun content hcontent => ?_
    rw [Query.buffers_map] at hcontent
    obtain ⟨v, hv, rfl⟩ := List.mem_map.mp hcontent
    exact hsafe.length_read_le (hheld v hv)
  · exact fun trap h => (nomatch h)

theorem resolves_edit (hs : s.Wf) (name : Name) (extent : Extent) (e : Edit Name) :
    Resolves (fun p => Ends s.store.Extends s.store.Bounded (fun _ _ => True) (p.run s.store))
      (s.edit name extent e) := by
  refine (resolves_extent hs name extent).bind fun w hw => ?_
  split
  · rename_i e' he'
    have hheld := Edit.of_mapM? hs.held he'
    show Ends _ _ _ ((e'.perform w).run s.store)
    rw [e'.run_perform hw hheld]
    refine ends_settle hw (fun hsafe => Edit.noTrap_apply _ (hsafe.length_read_le hw)) ?_
    intro new reply happly
    rw [Edit.length_apply happly, Store.length_read hw]
  · exact fun trap h => (nomatch h)

/-! ## Steps and runs -/

/-- What a command answers in a session that has become another one: a buffer that is answered lies
in its block. -/
def Shows (answer : Answer) (store : Store) : Prop := ∀ w, answer = .buffer w → store.Holds w

theorem respond_advances (hs : s.Wf) {p : Except Failure (Action Store Reply)}
    (hp : Resolves (fun p => Ends s.store.Extends s.store.Bounded (fun _ _ => True)
      (p.run s.store)) p) : Advances s Shows (s.respond p).1 (s.respond p).2 := by
  have h := Advances.carryOut hs hp
  unfold respond
  cases hcarry : s.carryOut p with
  | mk result t =>
    rw [hcarry] at h
    cases result with
    | ok reply =>
      refine ⟨h.wf, h.grows, fun _ _ heq => (nomatch heq), fun answer heq w hw => ?_⟩
      cases heq
      nomatch hw
    | error failure =>
      refine ⟨h.wf, h.grows, fun hsafe trap heq => ?_, fun _ heq => (nomatch heq)⟩
      exact h.noTrap hsafe trap (congrArg _ (Except.error.inj heq))

theorem valid_ofSize {size : Nat} {config : PoolConfig} (h : PoolConfig.ofSize size = .ok config) :
    config.Valid := by
  unfold PoolConfig.ofSize at h
  split at h
  · rename_i hvalid
    cases h
    exact hvalid
  · nomatch h

theorem newPool_advances (hs : s.Wf) {config : PoolConfig} (hconfig : config.Valid)
    (name : Option Name) :
    Advances s Shows (.ok (.reply .nothing)) (s.bindPool name (.new config)) := by
  have hshows : ∀ answer, Except.ok (Answer.reply .nothing) = (.ok answer : Except Failure Answer) →
      Shows answer s.store := by
    intro answer heq w hw
    cases heq
    nomatch hw
  cases name with
  | none => exact ⟨hs, .refl _, fun _ _ heq => (nomatch heq), hshows⟩
  | some name =>
    exact ⟨hs.insertPool (Pool.fits_new hconfig _) name, .refl _, fun _ _ heq => (nomatch heq),
      hshows⟩

theorem step_make_ok {m : Maker} {w : Window} {t : Session} (h : s.make m = (.ok w, t))
    (name : Option Name) : s.step (.make m name) = (.ok (.buffer w), t.bind name w) := by
  simp only [step, h]

theorem step_make_error {m : Maker} {failure : Failure} {t : Session}
    (h : s.make m = (.error failure, t)) (name : Option Name) :
    s.step (.make m name) = (.error failure, t) := by
  simp only [step, h]

/-- Every command keeps the session. -/
theorem step_advances (hs : s.Wf) (command : Command) :
    Advances s Shows (s.step command).1 (s.step command).2 := by
  cases command with
  | make maker name =>
    have h := make_advances hs maker
    cases hmake : s.make maker with
    | mk result t =>
      rw [hmake] at h
      cases result with
      | ok w =>
        have hmade := h.post w rfl
        rw [step_make_ok hmake]
        have hstore : (t.bind name w).store = t.store := by cases name <;> rfl
        refine ⟨h.wf.bind hmade.holds name, ?_, fun _ _ heq => (nomatch heq), ?_⟩
        · rw [hstore]
          exact h.grows
        · intro answer heq v hv
          cases heq
          cases hv
          rw [hstore]
          exact hmade.holds
      | error failure =>
        rw [step_make_error hmake]
        refine ⟨h.wf, h.grows, fun hsafe trap heq => ?_, fun _ heq => (nomatch heq)⟩
        exact h.noTrap hsafe trap (congrArg _ (Except.error.inj heq))
  | query on extent q => exact respond_advances hs (resolves_query hs on extent q)
  | edit on extent e => exact respond_advances hs (resolves_edit hs on extent e)
  | newPool size name =>
    cases size with
    | none => exact newPool_advances hs (by decide) name
    | some n =>
      unfold step
      simp only
      cases hconfig : PoolConfig.ofSize n with
      | ok config => exact newPool_advances hs (valid_ofSize hconfig) name
      | error f => exact .of_failure hs fun trap h => (nomatch h)

/-- A session before and after a sequence of commands, and their answers: the session stands, its
store has grown, and all buffers that were answered lie in their blocks. No command has ended in a
trap if in the end no block is too large. -/
structure Keeps (s : Session) (answers : List (Except Failure Answer)) (t : Session) : Prop where
  wf : t.Wf
  grows : s.store.Extends t.store
  noTrap : t.store.Bounded → ∀ trap, .error (.trap trap) ∉ answers
  holds : ∀ w, .ok (.buffer w) ∈ answers → t.store.Holds w

theorem run_keeps (hs : s.Wf) (commands : List Command) :
    Keeps s (s.run commands).1 (s.run commands).2 := by
  induction commands generalizing s with
  | nil => exact ⟨hs, .refl _, fun _ _ h => (nomatch h), fun _ h => (nomatch h)⟩
  | cons command rest ih =>
    have hstep := step_advances hs command
    have hrest := ih hstep.wf
    refine ⟨hrest.wf, hstep.grows.trans hrest.grows, fun hsafe trap hmem => ?_, fun w hmem => ?_⟩
    · rcases List.mem_cons.mp hmem with heq | hmem
      · -- Blocks never shrink: none was too large before, if none is in the end.
        have hbefore := (hstep.grows.trans hrest.grows).bounded hsafe
        exact hstep.noTrap hbefore trap heq.symm
      · exact hrest.noTrap hsafe trap hmem
    · rcases List.mem_cons.mp hmem with heq | hmem
      · exact hrest.grows.holds (hstep.post _ heq.symm w rfl)
      · exact hrest.holds w hmem

/-- A buffer that a command of a session has answered, or that a name stands for. -/
def Live (answers : List (Except Failure Answer)) (s : Session) (w : Window) : Prop :=
  .ok (.buffer w) ∈ answers ∨ ∃ name, s.window? name = some w

theorem Keeps.live {answers : List (Except Failure Answer)} {t : Session} {w : Window}
    (h : Keeps s answers t) (hw : Live answers t w) : t.store.Holds w := by
  rcases hw with hmem | ⟨name, hname⟩
  · exact h.holds w hmem
  · exact h.wf.held name w hname

/-- Of a session from nothing, split at any command: as long as no block has more bytes than a
block may have, no command of the session ends in a trap, the messages of its faults can be built,
every live buffer lies in its block, and the blocks of the first part keep their sizes. -/
theorem run_safe {commands rest : List Command} {answers : List (Except Failure Answer)}
    {s : Session} (h : empty.run (commands ++ rest) = (answers, s)) (hmax : s.store.Bounded) :
    (∀ trap, .error (.trap trap) ∉ answers) ∧
      (∀ f, .error (.fault f) ∈ answers → f.build = .ok f.message) ∧
      (∀ w, Live answers s w → s.store.Holds w) ∧
      ∀ id < (empty.run commands).2.store.blocks.length,
        s.store.capacity id = (empty.run commands).2.store.capacity id := by
  have hfirst := run_keeps wf_empty commands
  have hrest := run_keeps hfirst.wf rest
  have hwhole := run_keeps wf_empty (commands ++ rest)
  rw [h] at hwhole
  rw [run_append, Prod.mk.injEq] at h
  refine ⟨hwhole.noTrap hmax, fun f _ => f.build_eq_ok, fun w hw => hwhole.live hw,
    fun id hid => ?_⟩
  rw [← h.2]
  exact hrest.grows.capacity_eq id hid

/-- A session that fills the end of a buffer with all of it, looks at it with numbers that are not
finite, and copies a claim from a pool into it. -/
theorem run_safe_overlap :
    let commands : List Command :=
      [.make (.ofBytes [1, 2, 3, 4, 5, 6]) (some "whole"),
        .make (.subarray "whole" (.ofInt (-4)) .undefined) (some "end"),
        .newPool (some 16) (some "pool"), .make (.claim "pool" 5) (some "claim")]
    let rest : List Command :=
      [.edit "end" .shown (.fill (.buffer "whole") (.ofInt 1) .undefined .undefined),
        .query "whole" .shown (.toText .undefined (.number (.infinity true)) (.number .nan)),
        .edit "whole" .shown (.copyRange "claim" 4 0 5)]
    (empty.run (commands ++ rest)).2.store.Bounded ∧
      (∀ trap, .error (.trap trap) ∉ (empty.run (commands ++ rest)).1) ∧
      (empty.run (commands ++ rest)).2.store.blocks = [[1, 2, 3, 1, 0, 0], List.replicate 16 0] :=
  have hblocks : (empty.run _).2.store.blocks = [[1, 2, 3, 1, 0, 0], List.replicate 16 0] := by
    decide +kernel
  have hmax : (empty.run _).2.store.Bounded := by
    unfold Store.Bounded
    rw [hblocks]
    decide
  ⟨hmax, (run_safe rfl hmax).1, hblocks⟩

end Session

end Octets
