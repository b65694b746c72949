import Octets.Content.Access
import Octets.Content.Comparison
import Octets.Content.Copy
import Octets.Content.Fill
import Octets.Content.Search
import Octets.Content.Swap
import Octets.Content.Transcript
import Octets.Field.Floating
import Octets.Field.Integer

/-!
# Operations on the bytes of a buffer

The operations on one buffer, as data: a `Query` reads the bytes that the buffer shows, an `Edit`
also gives the bytes that it shows afterwards. Both are parametric in what stands for the other
buffers among their arguments. What an operation is to give is a function of the bytes that its
buffers show at the time of the call (`Query.answer`, `Edit.apply`); how it is carried out on
windows, which may overlap, is in `Octets.Memory`.
-/

namespace Octets

variable {ω ω' : Type}

/-- What an operation answers. -/
inductive Reply where
  | nothing
  | natural (n : Nat)
  | integer (n : Int)
  | bigInteger (n : Int)
  | number (x : Binary64)
  | text (s : String)
  | flag (b : Bool)
  | order (o : Ordering)
  /-- A position, if there is one. -/
  | position (p : Option Nat)
deriving DecidableEq

/-! ## Fields -/

/-- A field that holds a value. -/
inductive Field.Shape where
  | integer (l : Layout)
  | bigInteger (signed : Bool) (order : ByteOrder)
  | single (order : ByteOrder)
  | double (order : ByteOrder)
deriving DecidableEq

namespace Field.Shape

/-- The value in a field. -/
def read (shape : Shape) (content : Bytes) (offset : Operand) : Except Stop Reply :=
  match shape with
  | .integer l => do
    let n ← readInteger l content offset
    return .integer n
  | .bigInteger signed order => do
    let n ← readBig signed order content offset
    return .bigInteger n
  | .single order => do
    let x ← readSingle order content offset
    return .number x
  | .double order => do
    let x ← readDouble order content offset
    return .number x

/-- Write a value into a field. -/
def write (shape : Shape) (content : Bytes) (value offset : Operand) :
    Except Stop (Bytes × Nat) :=
  match shape with
  | .integer l => writeInteger l content value offset
  | .bigInteger signed order => writeBig signed order content value offset
  | .single order => writeSingle order content value offset
  | .double order => writeDouble order content value offset

end Field.Shape

/-! ## Queries -/

/-- A question about the bytes of a buffer. -/
inductive Query (ω : Type) where
  | byteAt (index : Nat)
  | readField (shape : Field.Shape) (offset : Value ω)
  | readSized (signed : Bool) (order : ByteOrder) (offset width : Value ω)
  | toText (encoding start stop : Value ω)
  | indexOf (needle position encoding : Value ω) (direction : Search.Direction)
  | includes (needle position encoding : Value ω)
  | compare (other : ω)
  | equals (other : ω)
  | compareRange (target : ω) (targetStart targetStop sourceStart sourceStop : Value ω)

namespace Query

/-- Give the other buffers in another way that may fail. -/
def mapM? (f : ω → Option ω') : Query ω → Option (Query ω')
  | .byteAt index => some (.byteAt index)
  | .readField shape offset => do return .readField shape (← offset.mapM? f)
  | .readSized signed order offset width => do
    return .readSized signed order (← offset.mapM? f) (← width.mapM? f)
  | .toText encoding start stop => do
    return .toText (← encoding.mapM? f) (← start.mapM? f) (← stop.mapM? f)
  | .indexOf needle position encoding direction => do
    return .indexOf (← needle.mapM? f) (← position.mapM? f) (← encoding.mapM? f) direction
  | .includes needle position encoding => do
    return .includes (← needle.mapM? f) (← position.mapM? f) (← encoding.mapM? f)
  | .compare other => do return .compare (← f other)
  | .equals other => do return .equals (← f other)
  | .compareRange target ts te ss se => do
    return .compareRange (← f target) (← ts.mapM? f) (← te.mapM? f) (← ss.mapM? f) (← se.mapM? f)

/-- Give the other buffers in another way. -/
def map (f : ω → ω') : Query ω → Query ω'
  | .byteAt index => .byteAt index
  | .readField shape offset => .readField shape (offset.map f)
  | .readSized signed order offset width => .readSized signed order (offset.map f) (width.map f)
  | .toText encoding start stop => .toText (encoding.map f) (start.map f) (stop.map f)
  | .indexOf needle position encoding direction =>
    .indexOf (needle.map f) (position.map f) (encoding.map f) direction
  | .includes needle position encoding =>
    .includes (needle.map f) (position.map f) (encoding.map f)
  | .compare other => .compare (f other)
  | .equals other => .equals (f other)
  | .compareRange target ts te ss se =>
    .compareRange (f target) (ts.map f) (te.map f) (ss.map f) (se.map f)

/-- The buffers among the arguments. -/
def buffers : Query ω → List ω
  | .byteAt _ => []
  | .readField _ offset => offset.buffers
  | .readSized _ _ offset width => offset.buffers ++ width.buffers
  | .toText encoding start stop => encoding.buffers ++ start.buffers ++ stop.buffers
  | .indexOf needle position encoding _ => needle.buffers ++ position.buffers ++ encoding.buffers
  | .includes needle position encoding => needle.buffers ++ position.buffers ++ encoding.buffers
  | .compare other => [other]
  | .equals other => [other]
  | .compareRange target ts te ss se =>
    target :: (ts.buffers ++ te.buffers ++ ss.buffers ++ se.buffers)

/-- The answer for a buffer that shows the given bytes. -/
def answer (q : Query Bytes) (content : Bytes) : Except Stop Reply :=
  match q with
  | .byteAt index => do
    let b ← Content.byteAt content index
    return .natural b.toNat
  | .readField shape offset => shape.read content offset
  | .readSized signed order offset width => do
    let n ← Field.readSized signed order content offset width
    return .integer n
  | .toText encoding start stop => do
    let text ← Content.toText content encoding start stop
    return .text text
  | .indexOf needle position encoding direction => do
    let p ← Content.indexOf content needle position encoding direction
    return .position p
  | .includes needle position encoding => do
    let b ← Content.includes content needle position encoding
    return .flag b
  | .compare other => return .order (Bytes.order content other)
  | .equals other => return .flag (Content.equals content other)
  | .compareRange target ts te ss se => do
    let o ← Content.compareRange content target ts te ss se
    return .order o

@[simp] theorem map_map {ω'' : Type} (f : ω → ω') (g : ω' → ω'') (q : Query ω) :
    (q.map f).map g = q.map (g ∘ f) := by
  cases q <;> simp [map]

@[simp] theorem buffers_map (f : ω → ω') (q : Query ω) : (q.map f).buffers = q.buffers.map f := by
  cases q <;> simp [map, buffers]

/-- Two ways to give the buffers are the same if they are so for the buffers of the arguments. -/
theorem map_congr {f g : ω → ω'} {q : Query ω} (h : ∀ w ∈ q.buffers, f w = g w) :
    q.map f = q.map g := by
  cases q <;>
    simp only [map, buffers, List.mem_cons, List.mem_append, List.mem_nil_iff, or_imp, forall_and,
      forall_eq] at h ⊢
  all_goals grind [Value.map_congr]

end Query

/-! ## Edits -/

/-- A change of the bytes of a buffer. A copy is an edit of its target. -/
inductive Edit (ω : Type) where
  | setByte (index : Nat) (b : UInt8)
  | writeField (shape : Field.Shape) (value offset : Value ω)
  | writeSized (signed : Bool) (order : ByteOrder) (value offset width : Value ω)
  | writeText (s : String) (offset length encoding : Value ω)
  | fill (value offset stop encoding : Value ω)
  | swap (unit : SwapUnit)
  | copy (source : ω) (targetStart sourceStart sourceStop : Value ω)
  | copyRange (source : ω) (targetStart sourceStart sourceStop : Nat)

namespace Edit

/-- Give the other buffers in another way that may fail. -/
def mapM? (f : ω → Option ω') : Edit ω → Option (Edit ω')
  | .setByte index b => some (.setByte index b)
  | .writeField shape value offset => do
    return .writeField shape (← value.mapM? f) (← offset.mapM? f)
  | .writeSized signed order value offset width => do
    return .writeSized signed order (← value.mapM? f) (← offset.mapM? f) (← width.mapM? f)
  | .writeText s offset length encoding => do
    return .writeText s (← offset.mapM? f) (← length.mapM? f) (← encoding.mapM? f)
  | .fill value offset stop encoding => do
    return .fill (← value.mapM? f) (← offset.mapM? f) (← stop.mapM? f) (← encoding.mapM? f)
  | .swap unit => some (.swap unit)
  | .copy source ts ss se => do
    return .copy (← f source) (← ts.mapM? f) (← ss.mapM? f) (← se.mapM? f)
  | .copyRange source ts ss se => do return .copyRange (← f source) ts ss se

/-- Give the other buffers in another way. -/
def map (f : ω → ω') : Edit ω → Edit ω'
  | .setByte index b => .setByte index b
  | .writeField shape value offset => .writeField shape (value.map f) (offset.map f)
  | .writeSized signed order value offset width =>
    .writeSized signed order (value.map f) (offset.map f) (width.map f)
  | .writeText s offset length encoding =>
    .writeText s (offset.map f) (length.map f) (encoding.map f)
  | .fill value offset stop encoding =>
    .fill (value.map f) (offset.map f) (stop.map f) (encoding.map f)
  | .swap unit => .swap unit
  | .copy source ts ss se => .copy (f source) (ts.map f) (ss.map f) (se.map f)
  | .copyRange source ts ss se => .copyRange (f source) ts ss se

/-- The buffers among the arguments. -/
def buffers : Edit ω → List ω
  | .setByte _ _ => []
  | .writeField _ value offset => value.buffers ++ offset.buffers
  | .writeSized _ _ value offset width => value.buffers ++ offset.buffers ++ width.buffers
  | .writeText _ offset length encoding => offset.buffers ++ length.buffers ++ encoding.buffers
  | .fill value offset stop encoding =>
    value.buffers ++ offset.buffers ++ stop.buffers ++ encoding.buffers
  | .swap _ => []
  | .copy source ts ss se => source :: (ts.buffers ++ ss.buffers ++ se.buffers)
  | .copyRange source _ _ _ => [source]

/-- The bytes afterwards and the answer, for a buffer that shows the given bytes. -/
def apply (e : Edit Bytes) (content : Bytes) : Except Stop (Bytes × Reply) :=
  match e with
  | .setByte index b => do
    let new ← Content.setByte content index b
    return (new, .nothing)
  | .writeField shape value offset => do
    let (new, next) ← shape.write content value offset
    return (new, .natural next)
  | .writeSized signed order value offset width => do
    let (new, next) ← Field.writeSized signed order content value offset width
    return (new, .natural next)
  | .writeText s offset length encoding => do
    let (new, count) ← Content.writeText content s offset length encoding
    return (new, .natural count)
  | .fill value offset stop encoding => do
    let new ← Content.fill content value offset stop encoding
    return (new, .nothing)
  | .swap unit => do
    let new ← Content.swap content unit
    return (new, .nothing)
  | .copy source ts ss se => do
    let (new, count) ← Content.copy source content ts ss se
    return (new, .natural count)
  | .copyRange source ts ss se =>
    let (new, count) := Content.copyRange source content ts ss se
    return (new, .natural count)

@[simp] theorem map_map {ω'' : Type} (f : ω → ω') (g : ω' → ω'') (e : Edit ω) :
    (e.map f).map g = e.map (g ∘ f) := by
  cases e <;> simp [map]

@[simp] theorem buffers_map (f : ω → ω') (e : Edit ω) : (e.map f).buffers = e.buffers.map f := by
  cases e <;> simp [map, buffers]

/-- Two ways to give the buffers are the same if they are so for the buffers of the arguments. -/
theorem map_congr {f g : ω → ω'} {e : Edit ω} (h : ∀ w ∈ e.buffers, f w = g w) :
    e.map f = e.map g := by
  cases e <;>
    simp only [map, buffers, List.mem_cons, List.mem_append, List.mem_nil_iff, or_imp, forall_and,
      forall_eq] at h ⊢
  all_goals grind [Value.map_congr]

end Edit

end Octets
