import SchemaForge.Numeric.Numeral
import SchemaForge.Proofs.Value.Json

/-!
The values that reading a text can give: as JSON has a form for, and without an integer of more digits than
are read.
-/

namespace SchemaForge

/-- Whether a scalar is no integer of more digits than are read. -/
def Scalar.IsReadable : Scalar → Prop
  | .int i => (Numeric.digits i.natAbs).length ≤ Numeric.mostDigits
  | _ => True

theorem Scalar.isReadable_int_iff {i : Int} :
    (Scalar.int i).IsReadable ↔ (Numeric.digits i.natAbs).length ≤ Numeric.mostDigits :=
  Iff.rfl

/-- A value that JSON has a form for, with integers that can be read. -/
inductive Value.IsReadable : Value → Prop where
  | scalar {s : Scalar} (fits : s.IsReadable) : IsReadable (.scalar s)
  | array {xs : List Value} (elements : ∀ x ∈ xs, IsReadable x) : IsReadable (.array xs)
  | object {ms : Members} (text : ∀ m ∈ ms, m.1.IsText) (unique : (Members.keys ms).Nodup)
      (values : ∀ m ∈ ms, IsReadable m.2) : IsReadable (.object ms)

theorem Value.hereditary_isReadable : Value.Hereditary Scalar.IsText Value.IsReadable where
  key := Scalar.isText_str
  scalar hk := by
    obtain ⟨s, rfl⟩ := hk
    exact .scalar trivial
  array_iff xs := by
    constructor
    · intro h
      cases h with
      | array elements => exact elements
    · exact .array
  object_iff ms := by
    constructor
    · intro h
      cases h with
      | object text unique values => exact ⟨text, Members.distinct_of_text text unique, values⟩
    · rintro ⟨text, distinct, values⟩
      exact .object text distinct.nodup values

theorem Value.IsReadable.isJson {v : Value} (h : v.IsReadable) : v.IsJson := by
  induction h with
  | scalar _ => exact .scalar _
  | array _ ih => exact .array ih
  | object text unique _ ih => exact .object text unique ih

end SchemaForge
