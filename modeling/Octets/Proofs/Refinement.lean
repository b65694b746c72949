import Octets.Memory.Operation
import Octets.Proofs.Comparison
import Octets.Proofs.Copy
import Octets.Proofs.Field
import Octets.Proofs.Fill
import Octets.Proofs.Search
import Octets.Proofs.Transcript

/-!
# Runs of operations

The operations as they are carried out on the memory are those on the bytes that windows show:

* `Query.run_ask` — a query answers what `Query.answer` says about the bytes, and leaves the store
  as it is;
* `Edit.run_perform` — an edit puts the bytes into its window that `Edit.apply` gives, or stops
  where it does and leaves the store as it is.

Both hold for every store and all windows in it, whether they overlap or not.
-/

namespace Octets

open Octets.Action (outcome run_bind_outcome)

variable {s : Store} {w : Window}

/-! ## Queries and edits -/

theorem Field.Shape.run_load (shape : Field.Shape) {offset : Value Window} (hw : s.Holds w)
    (ho : ∀ v ∈ offset.buffers, s.Holds v) :
    (shape.load w offset).run s = outcome (shape.read (s.read w) (offset.map s.read)) s := by
  cases shape with
  | integer l => exact run_bind_outcome (w.run_readInteger l hw ho) fun _ _ => rfl
  | bigInteger signed order =>
    exact run_bind_outcome (w.run_readBig signed order hw ho) fun _ _ => rfl
  | single order => exact run_bind_outcome (w.run_readSingle order hw ho) fun _ _ => rfl
  | double order => exact run_bind_outcome (w.run_readDouble order hw ho) fun _ _ => rfl

theorem Field.Shape.run_store (shape : Field.Shape) {value offset : Value Window} (hw : s.Holds w)
    (hv : ∀ v ∈ value.buffers, s.Holds v) (ho : ∀ v ∈ offset.buffers, s.Holds v) :
    (shape.store w value offset).run s =
      s.settle w (shape.write (s.read w) (value.map s.read) (offset.map s.read)) := by
  cases shape with
  | integer l => exact w.run_writeInteger l hw hv ho
  | bigInteger signed order => exact w.run_writeBig signed order hw hv ho
  | single order => exact w.run_writeSingle order hw hv ho
  | double order => exact w.run_writeDouble order hw hv ho

/-- A query answers what it says about the bytes that its windows show. -/
theorem Query.run_ask (q : Query Window) (hw : s.Holds w) (hq : ∀ v ∈ q.buffers, s.Holds v) :
    (q.ask w).run s = outcome ((q.map s.read).answer (s.read w)) s := by
  cases q with
  | byteAt index => exact run_bind_outcome (w.run_byteAt index hw) fun _ _ => rfl
  | readField shape offset => exact shape.run_load hw hq
  | readSized signed order offset width =>
    simp only [buffers, List.mem_append, or_imp, forall_and] at hq
    obtain ⟨ho, hwidth⟩ := hq
    exact run_bind_outcome (w.run_readSized signed order hw ho hwidth) fun _ _ => rfl
  | toText encoding start stop =>
    simp only [buffers, List.mem_append, or_imp, forall_and] at hq
    obtain ⟨⟨he, hstart⟩, hstop⟩ := hq
    exact run_bind_outcome (w.run_toText hw he hstart hstop) fun _ _ => rfl
  | indexOf needle position encoding d =>
    simp only [buffers, List.mem_append, or_imp, forall_and] at hq
    obtain ⟨⟨hn, hp⟩, he⟩ := hq
    exact run_bind_outcome (w.run_indexOf d hw hn hp he) fun _ _ => rfl
  | includes needle position encoding =>
    simp only [buffers, List.mem_append, or_imp, forall_and] at hq
    obtain ⟨⟨hn, hp⟩, he⟩ := hq
    exact run_bind_outcome (w.run_includes hw hn hp he) fun _ _ => rfl
  | compare other =>
    have ho : s.Holds other := hq other (by simp [buffers])
    simp [ask, w.run_compare hw ho, map, answer]
  | equals other =>
    have ho : s.Holds other := hq other (by simp [buffers])
    simp [ask, w.run_equals hw ho, map, answer]
  | compareRange target ts te ss se =>
    simp only [buffers, List.mem_cons, List.mem_append, or_imp, forall_and, forall_eq] at hq
    obtain ⟨ht, ⟨⟨hts, hte⟩, hss⟩, hse⟩ := hq
    exact run_bind_outcome (w.run_compareRange hw ht hts hte hss hse) fun _ _ => rfl

/-- An edit puts the bytes into its window that it gives for the bytes that its windows show. -/
theorem Edit.run_perform (e : Edit Window) (hw : s.Holds w) (he : ∀ v ∈ e.buffers, s.Holds v) :
    (e.perform w).run s = s.settle w ((e.map s.read).apply (s.read w)) := by
  cases e with
  | setByte index b => exact Store.run_settle_return (w.run_setByte index b hw) _
  | writeField shape value offset =>
    simp only [buffers, List.mem_append, or_imp, forall_and] at he
    obtain ⟨hv, ho⟩ := he
    exact Store.run_settle_map (shape.run_store hw hv ho)
  | writeSized signed order value offset width =>
    simp only [buffers, List.mem_append, or_imp, forall_and] at he
    obtain ⟨⟨hv, ho⟩, hwidth⟩ := he
    exact Store.run_settle_map (w.run_writeSized signed order hw hv ho hwidth)
  | writeText text offset length encoding =>
    simp only [buffers, List.mem_append, or_imp, forall_and] at he
    obtain ⟨⟨ho, hl⟩, hencoding⟩ := he
    exact Store.run_settle_map (w.run_writeText text hw ho hl hencoding)
  | fill value offset stop encoding =>
    simp only [buffers, List.mem_append, or_imp, forall_and] at he
    obtain ⟨⟨⟨hv, ho⟩, hstop⟩, hencoding⟩ := he
    exact Store.run_settle_return (w.run_fill hw hv ho hstop hencoding) _
  | swap unit => exact Store.run_settle_return (w.run_swap unit hw) _
  | copy source ts ss se =>
    simp only [buffers, List.mem_cons, List.mem_append, or_imp, forall_and, forall_eq] at he
    obtain ⟨hsource, ⟨hts, hss⟩, hse⟩ := he
    exact Store.run_settle_map (source.run_copy hsource hw hts hss hse)
  | copyRange source ts ss se =>
    have hsource : s.Holds source := he source (by simp [buffers])
    exact Store.run_settle_map (source.run_copyInto ts ss se hsource hw)

end Octets
