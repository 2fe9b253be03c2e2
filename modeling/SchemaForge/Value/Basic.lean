import SchemaForge.Numeric.Binary64

/-!
The values that documents, samples and operations are made of. An object is the list of its members in
their order; its keys are scalars, because a path may write an index or a truth value into an object
where a text would be usual.
-/

namespace SchemaForge

/-- A value without parts. -/
inductive Scalar where
  | null
  | bool (b : Bool)
  | int (i : Int)
  | float (x : Numeric.Binary64)
  | str (s : String)
  deriving DecidableEq

/-- A value: a scalar, an array or an object. -/
inductive Value where
  | scalar (s : Scalar)
  | array (elements : List Value)
  | object (members : List (Scalar × Value))

/-- The members of an object, in their order. -/
abbrev Members := List (Scalar × Value)

namespace Scalar

/-- The representative of all scalars that stand for the same key: a truth value is one or zero, and a
whole number is an integer however it is written. -/
def canonical : Scalar → Scalar
  | .bool b => .int (if b then 1 else 0)
  | .float x =>
      match x.toInt? with
      | some i => .int i
      | none => .float x
  | s => s

/-- Whether two scalars stand for the same key. -/
def same (a b : Scalar) : Bool := a.canonical = b.canonical

/-- Whether two scalars are equal when compared on their own, where a value that is no number is not
even equal to itself. -/
def equals (a b : Scalar) : Bool := a.same b && a ≠ .float .nan

@[simp] theorem canonical_str (s : String) : (Scalar.str s).canonical = .str s := rfl

@[simp] theorem same_self (a : Scalar) : a.same a = true := by simp [same]

theorem same_comm (a b : Scalar) : a.same b = b.same a := by
  simp [same, eq_comm]

theorem same_trans {a b c : Scalar} (hab : a.same b = true) (hbc : b.same c = true) :
    a.same c = true := by
  simp_all [same]

theorem same_str_iff (a : Scalar) (s : String) : a.same (.str s) = true ↔ a = .str s := by
  cases a with
  | float x =>
      cases h : x.toInt? <;> simp [same, canonical, h]
  | _ => simp [same, canonical]

end Scalar

namespace Value

@[match_pattern] abbrev null : Value := .scalar .null

@[match_pattern] abbrev bool (b : Bool) : Value := .scalar (.bool b)

@[match_pattern] abbrev int (i : Int) : Value := .scalar (.int i)

@[match_pattern] abbrev float (x : Numeric.Binary64) : Value := .scalar (.float x)

@[match_pattern] abbrev str (s : String) : Value := .scalar (.str s)

/-! ### Identity -/

mutual

/-- Whether two values are identical, the order of members included. -/
def decideEq : (a b : Value) → Decidable (a = b)
  | .scalar a, .scalar b =>
      if h : a = b then isTrue (by rw [h]) else isFalse (by simpa using h)
  | .array xs, .array ys =>
      match decideEqElements xs ys with
      | isTrue h => isTrue (by rw [h])
      | isFalse h => isFalse (by simpa using h)
  | .object ms, .object ns =>
      match decideEqMembers ms ns with
      | isTrue h => isTrue (by rw [h])
      | isFalse h => isFalse (by simpa using h)
  | .scalar _, .array _ => isFalse (by simp)
  | .scalar _, .object _ => isFalse (by simp)
  | .array _, .scalar _ => isFalse (by simp)
  | .array _, .object _ => isFalse (by simp)
  | .object _, .scalar _ => isFalse (by simp)
  | .object _, .array _ => isFalse (by simp)

def decideEqElements : (xs ys : List Value) → Decidable (xs = ys)
  | [], [] => isTrue rfl
  | [], _ :: _ => isFalse (by simp)
  | _ :: _, [] => isFalse (by simp)
  | x :: xs, y :: ys =>
      match decideEq x y, decideEqElements xs ys with
      | isTrue h, isTrue hs => isTrue (by rw [h, hs])
      | isFalse h, _ => isFalse (by simp [h])
      | _, isFalse hs => isFalse (by simp [hs])

def decideEqMembers : (ms ns : List (Scalar × Value)) → Decidable (ms = ns)
  | [], [] => isTrue rfl
  | [], _ :: _ => isFalse (by simp)
  | _ :: _, [] => isFalse (by simp)
  | (k, v) :: ms, (l, w) :: ns =>
      if hk : k = l then
        match decideEq v w, decideEqMembers ms ns with
        | isTrue h, isTrue hs => isTrue (by rw [hk, h, hs])
        | isFalse h, _ => isFalse (by simp [h])
        | _, isFalse hs => isFalse (by simp [hs])
      else isFalse (by simp [hk])

end

instance : DecidableEq Value := decideEq

instance : Inhabited Value := ⟨null⟩

end Value

end SchemaForge
