import SchemaForge.Proofs.Editor.Heredity
import SchemaForge.Proofs.Path.Grammar

/-!
Values that have a text. An integer is written only if it has no more digits than one may have that is read,
and a value that holds a longer one, be it as a key, has no text at all, neither as JSON nor in a message. No
text denotes such a value, and an editor that is given none does not come to one.
-/

namespace SchemaForge

/-- A value that has a text: its keys are different, as those of all objects are, and none of its integers has
more digits than are read and written. -/
inductive Value.IsPrintable : Value → Prop where
  | scalar {s : Scalar} (fits : s.IsReadable) : IsPrintable (.scalar s)
  | array {xs : List Value} (elements : ∀ x ∈ xs, IsPrintable x) : IsPrintable (.array xs)
  | object {ms : Members} (keys : ∀ m ∈ ms, m.1.IsReadable) (distinct : ms.Distinct)
      (values : ∀ m ∈ ms, IsPrintable m.2) : IsPrintable (.object ms)

theorem Value.hereditary_isPrintable : Value.Hereditary Scalar.IsReadable Value.IsPrintable where
  key _ := trivial
  scalar := .scalar
  array_iff xs := by
    constructor
    · intro h
      cases h with
      | array elements => exact elements
    · exact .array
  object_iff ms := by
    constructor
    · intro h
      cases h with
      | object keys distinct values => exact ⟨keys, distinct, values⟩
    · rintro ⟨keys, distinct, values⟩
      exact .object keys distinct values

theorem Value.isPrintable_scalar_iff {s : Scalar} : (Value.scalar s).IsPrintable ↔ s.IsReadable := by
  constructor
  · intro h
    cases h with
    | scalar fits => exact fits
  · exact .scalar

theorem Value.IsReadable.isPrintable {v : Value} (h : v.IsReadable) : v.IsPrintable := by
  induction h with
  | scalar fits => exact .scalar fits
  | array _ ih => exact .array ih
  | object text unique _ ih =>
      exact .object (fun m hm => Value.hereditary_isPrintable.key_of_isText (text m hm))
        (Members.distinct_of_text text unique) ih

namespace Editor

/-- An editor that was given nothing but values that have a text. -/
def GivenPrintable (editor : Editor) : Prop :=
  ReachedBy Value.IsPrintable (fun _ operation => ∀ v ∈ operation.brought, v.IsPrintable) editor

namespace GivenPrintable

variable {editor : Editor}

/-- The document of such an editor has a text. -/
theorem document (h : editor.GivenPrintable) : editor.document.IsPrintable :=
  hereditary_of_reached_of_brought Value.hereditary_isPrintable
    (fun _ => Value.isPrintable_scalar_iff.mp) h

theorem isPrintable_brought {description : Value} (h : description.IsPrintable) {operation : Operation}
    (hoperation : Operation.ofValue description = .ok operation) :
    ∀ v ∈ operation.brought, v.IsPrintable :=
  Operation.brought_of_ofValue Value.hereditary_isPrintable
    (fun hparse => (Path.isReadable_of_parse hparse).isPrintable) h hoperation

theorem replace (h : editor.GivenPrintable) {root : Value} (hroot : root.IsPrintable) :
    (editor.perform (.replaceDocument root)).editor.GivenPrintable :=
  h.perform fun _ hv => List.mem_singleton.mp hv ▸ hroot

theorem apply (h : editor.GivenPrintable) {description : Value} (hdescription : description.IsPrintable) :
    (editor.apply description).editor.GivenPrintable :=
  ReachedBy.apply h fun _ => isPrintable_brought hdescription

theorem applyAll (h : editor.GivenPrintable) {descriptions : Value} (hdescriptions : descriptions.IsPrintable) :
    (editor.applyAll descriptions).editor.GivenPrintable := by
  rw [applyAll_eq]
  split
  · next ds hds =>
      refine ReachedBy.applyEach h fun d hd _ hoperation _ => isPrintable_brought ?_ hoperation
      exact Value.hereditary_isPrintable.of_elements hdescriptions hds d hd
  · exact h

end GivenPrintable

end Editor

end SchemaForge
