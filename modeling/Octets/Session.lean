import Octets.Memory.Construction
import Octets.Memory.Operation
import Octets.Pool.Claim

/-!
# Sessions

A session keeps a store, buffers and pools under names, and carries out commands one after the
other. Commands refer to buffers by name; different names may stand for windows that overlap.

* `Session.step` — the answer to a command, and the session afterwards;
* `Session.run` — the answers to a sequence of commands.

The names of a command are resolved to windows, and the operation runs on the store of the session
(`Session.carryOut`). What it has done to the store stays done when it stops; a command that fails
binds no name.
-/

namespace Octets

/-- The name of a buffer or of a pool. -/
abbrev Name := String

/-- An argument whose buffers are given by name. -/
abbrev Argument.Named := Value Name

/-- How a buffer is made. -/
inductive Maker where
  | ofBytes (content : Bytes)
  | ofText (s : String) (encoding : Argument.Named)
  | ofValues (values : List Argument.Named)
  | ofJson (text : String)
  | filled (size value encoding : Argument.Named)
  /-- A copy of the bytes that a buffer shows. -/
  | copyOf (source : Name)
  | concat (parts : List Name) (totalLength : Argument.Named)
  /-- A block of a checked size. -/
  | sized (size : Argument.Named)
  /-- A block of its own. -/
  | block (size : Nat)
  /-- A part of a buffer's block. -/
  | share (source : Name) (offset length : Argument.Named)
  /-- A part of a buffer's block at a plain place. -/
  | window (source : Name) (offset length : Nat)
  /-- A part of a buffer. -/
  | subarray (source : Name) (start stop : Argument.Named)
  /-- A part of a buffer between plain positions. -/
  | slice (source : Name) (start stop : Int)
  /-- A claim of a checked size. -/
  | sizedClaim (pool : Name) (size : Argument.Named)
  | claim (pool : Name) (size : Nat)

/-- The bytes that a command works on. -/
inductive Extent where
  /-- The bytes that the buffer shows. -/
  | shown
  /-- The whole block of the buffer. -/
  | block
deriving DecidableEq

/-- A command of a session. -/
inductive Command where
  | make (maker : Maker) (name : Option Name)
  | query (on : Name) (extent : Extent) (q : Query Name)
  | edit (on : Name) (extent : Extent) (e : Edit Name)
  /-- A pool with the given size of slabs, or with the default settings. -/
  | newPool (size : Option Nat) (name : Option Name)

/-- Why a command fails. -/
inductive Failure where
  | fault (f : Fault)
  | trap (t : Trap)
  | config (f : ConfigFault)
  | json (f : JsonFault)
  /-- A name stands for nothing. -/
  | unbound (name : Name)

/-- The failure of a command whose operation stops. -/
def Failure.ofStop : Stop → Failure
  | .fault f => .fault f
  | .trap t => .trap t

/-- What a command answers. -/
inductive Answer where
  | reply (r : Reply)
  | buffer (w : Window)

/-- Named buffers and pools over a store. -/
structure Session where
  store : Store
  buffers : List (Name × Window)
  pools : List (Name × Pool)

namespace Session

/-- A session without buffers and pools. -/
def empty : Session := ⟨.empty, [], []⟩

/-! ## Names -/

/-- The window of a name. -/
def window? (s : Session) (name : Name) : Option Window := s.buffers.lookup name

/-- The pool of a name. -/
def pool? (s : Session) (name : Name) : Option Pool := s.pools.lookup name

/-- Entries with another value under a name. -/
def insert {α : Type} (name : Name) (a : α) (entries : List (Name × α)) : List (Name × α) :=
  (name, a) :: entries.filter fun entry => entry.1 != name

/-- The session with a window under a name, if there is a name. -/
def bind (s : Session) (name : Option Name) (w : Window) : Session :=
  match name with
  | some name => { s with buffers := insert name w s.buffers }
  | none => s

/-- The session with a pool under a name, if there is a name. -/
def bindPool (s : Session) (name : Option Name) (p : Pool) : Session :=
  match name with
  | some name => { s with pools := insert name p s.pools }
  | none => s

/-- A name stands for what it was last given. -/
@[simp] theorem lookup_insert_self {α : Type} (name : Name) (a : α) (entries : List (Name × α)) :
    (insert name a entries).lookup name = some a := by
  simp [insert]

/-- Other names stand for what they stood for. -/
theorem lookup_insert_of_ne {α : Type} {name other : Name} (h : other ≠ name) (a : α)
    (entries : List (Name × α)) : (insert name a entries).lookup other = entries.lookup other := by
  have hname : (other == name) = false := by simpa using h
  unfold insert
  simp only [List.lookup_cons, hname]
  induction entries with
  | nil => rfl
  | cons entry rest ih =>
    obtain ⟨key, value⟩ := entry
    by_cases hkey : key = name
    · subst hkey
      simp [List.lookup_cons, hname, ih]
    · by_cases hother : other = key
      · subst hother
        simp [hkey]
      · have hkeyName : (other == key) = false := by simpa using hother
        simp [List.lookup_cons, hkey, hkeyName, ih]

/-- The window of a name, or the failure that it stands for nothing. -/
def window (s : Session) (name : Name) : Except Failure Window :=
  match s.window? name with
  | some w => .ok w
  | none => .error (.unbound name)

/-- An argument with the windows of its buffers. -/
def argument (s : Session) (v : Argument.Named) : Except Failure (Value Window) :=
  match v.mapM? s.window? with
  | some v => .ok v
  | none =>
    match v with
    | .buffer name => .error (.unbound name)
    | _ => .error (.unbound "")

/-- Run an action on the store of the session, if the names of the command could be resolved. -/
def carryOut {α : Type} (s : Session) (p : Except Failure (Action Store α)) :
    Except Failure α × Session :=
  match p with
  | .error failure => (.error failure, s)
  | .ok p =>
    match p.run s.store with
    | .ok a store => (.ok a, { s with store })
    | .error stop store => (.error (.ofStop stop), { s with store })

/-- Run an action on a pool and on the store of the session. -/
def carryOutOn {α : Type} (s : Session) (name : Name)
    (p : Except Failure (Action (Pool × Store) α)) : Except Failure α × Session :=
  match p, s.pool? name with
  | .error failure, _ => (.error failure, s)
  | _, none => (.error (.unbound name), s)
  | .ok p, some pool =>
    match p.run (pool, s.store) with
    | .ok a (pool, store) => (.ok a, { s with store, pools := insert name pool s.pools })
    | .error stop (pool, store) =>
      (.error (.ofStop stop), { s with store, pools := insert name pool s.pools })

/-! ## Making buffers -/

/-- The action that makes a buffer; a claim needs a pool and has none. -/
def maker (s : Session) : Maker → Except Failure (Action Store Window)
  | .ofBytes content => return Store.wrap content
  | .ofText text encoding => return Window.ofText text (← s.argument encoding)
  | .ofValues values => return Window.ofValues (← values.mapM s.argument)
  | .ofJson text => return Store.wrap (← (Bytes.ofJson text).mapError .json)
  | .filled size value encoding =>
    return Window.filled (← s.argument size) (← s.argument value) (← s.argument encoding)
  | .copyOf source => return (← s.window source).copyOf
  | .concat parts totalLength =>
    return Window.concat (← parts.mapM s.window) (← s.argument totalLength)
  | .sized size => return Window.sized (← s.argument size)
  | .block size => return Store.allocate size
  | .share source offset length =>
    return Window.share (← s.window source).block (← s.argument offset) (← s.argument length)
  | .window source offset length => return Window.create (← s.window source).block offset length
  | .subarray source start stop =>
    return (← s.window source).subarray (← s.argument start) (← s.argument stop)
  | .slice source start stop => return liftM ((← s.window source).aliased start stop)
  | .sizedClaim pool _ => .error (.unbound pool)
  | .claim pool _ => .error (.unbound pool)

/-- Make a buffer. -/
def make (s : Session) (m : Maker) : Except Failure Window × Session :=
  match m with
  | .claim pool size => s.carryOutOn pool (.ok (Pool.claim size))
  | .sizedClaim pool size => s.carryOutOn pool ((s.argument size).map Pool.claimSized)
  | m => s.carryOut (s.maker m)

/-! ## Commands -/

/-- The window that a command works on. -/
def extent (s : Session) (name : Name) : Extent → Except Failure Window
  | .shown => s.window name
  | .block => do return s.store.whole (← s.window name).block

/-- The action of a query. -/
def query (s : Session) (name : Name) (extent : Extent) (q : Query Name) :
    Except Failure (Action Store Reply) := do
  let w ← s.extent name extent
  match q.mapM? s.window? with
  | some q => return q.ask w
  | none => throw (.unbound name)

/-- The action of an edit. -/
def edit (s : Session) (name : Name) (extent : Extent) (e : Edit Name) :
    Except Failure (Action Store Reply) := do
  let w ← s.extent name extent
  match e.mapM? s.window? with
  | some e => return e.perform w
  | none => throw (.unbound name)

/-- The answer to a command that works on a buffer. -/
def respond (s : Session) (p : Except Failure (Action Store Reply)) :
    Except Failure Answer × Session :=
  let (result, s) := s.carryOut p
  (result.map .reply, s)

/-- The answer to a command, and the session afterwards. -/
def step (s : Session) : Command → Except Failure Answer × Session
  | .make maker name =>
    match s.make maker with
    | (.ok w, s) => (.ok (.buffer w), s.bind name w)
    | (.error failure, s) => (.error failure, s)
  | .query on extent q => s.respond (s.query on extent q)
  | .edit on extent e => s.respond (s.edit on extent e)
  | .newPool size name =>
    match (match size with
      | some n => PoolConfig.ofSize n
      | none => .ok .default) with
    | .ok config => (.ok (.reply .nothing), s.bindPool name (.new config))
    | .error failure => (.error (.config failure), s)

/-- The answers to a sequence of commands, and the session afterwards. -/
def run (s : Session) : List Command → List (Except Failure Answer) × Session
  | [] => ([], s)
  | command :: rest =>
    let (answer, s) := s.step command
    let (answers, s) := s.run rest
    (answer :: answers, s)

/-- A sequence of commands can be carried out in two parts. -/
theorem run_append (s : Session) (a b : List Command) :
    s.run (a ++ b) = ((s.run a).1 ++ ((s.run a).2.run b).1, ((s.run a).2.run b).2) := by
  induction a generalizing s with
  | nil => rfl
  | cons command rest ih => simp [run, ih]

end Session

end Octets
