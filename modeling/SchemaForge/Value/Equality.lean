import SchemaForge.Value.Members

/-!
Equality of values as lists and objects compare their parts: numbers by what they denote, objects
whatever the order of their members. A value that is no number is equal to itself here; only a
comparison of two values on their own tells it apart from itself.
-/

namespace SchemaForge.Value

mutual

/-- Whether two values are equal as parts of a list or an object. -/
def same : (a b : Value) → Bool
  | .scalar a, .scalar b => a.same b
  | .array xs, .array ys => sameElements xs ys
  | .object ms, .object ns => ms.length = ns.length && sameMembers ms ns
  | _, _ => false

/-- Whether two lists are equal element by element. -/
def sameElements : (xs ys : List Value) → Bool
  | [], [] => true
  | x :: xs, y :: ys => same x y && sameElements xs ys
  | _, _ => false

/-- Whether each of the first members has an equal one among the second. -/
def sameMembers : (ms ns : List (Scalar × Value)) → Bool
  | [], _ => true
  | (k, v) :: ms, ns =>
      (match Members.find? k ns with
        | some w => same v w
        | none => false) && sameMembers ms ns

end

/-- Whether two values are equal when compared on their own. -/
def equals (a b : Value) : Bool := a.same b && a ≠ .float .nan

def occurs (v : Value) (xs : List Value) : Bool := xs.any (·.same v)

@[simp] theorem same_str_iff (v : Value) (s : String) : v.same (.str s) = true ↔ v = .str s := by
  cases v <;> simp [same, Scalar.same_str_iff]

theorem equals_str_iff {v : Value} {s : String} : v.equals (.str s) = true ↔ v = .str s := by
  rw [equals, Bool.and_eq_true, same_str_iff]
  constructor
  · exact fun h => h.1
  · rintro rfl
    exact ⟨rfl, by simp⟩

@[simp] theorem occurs_nil (v : Value) : v.occurs [] = false := rfl

theorem occurs_str_iff (s : String) (xs : List Value) :
    (Value.str s).occurs xs = true ↔ Value.str s ∈ xs := by
  simp only [occurs, List.any_eq_true, same_str_iff]
  constructor
  · rintro ⟨x, hx, rfl⟩
    exact hx
  · exact fun h => ⟨_, h, rfl⟩

theorem occurs_str_eq_false_iff {s : String} {xs : List Value} :
    (Value.str s).occurs xs = false ↔ Value.str s ∉ xs := by
  rw [← Bool.not_eq_true, occurs_str_iff]

end SchemaForge.Value
