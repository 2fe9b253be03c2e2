import SchemaForge.Proofs.Session.Imports

/-!
Texts that a session takes in or passes over. A sample is taken in if it denotes a value other than null, and
a schema if it denotes an object; what is taken in is committed once, in normal form, and of everything else
nothing is left but a notice. Neither step can fail, since every JSON sample has a schema. Texts pair their
halves throughout.
-/

namespace SchemaForge.Session

def Denotes (text : Option String) (v : Value) : Prop := ∃ t, text = some t ∧ Json.read t = .ok v

theorem readInput_eq_ok_iff {text : Option String} {v : Value} : readInput text = .ok v ↔ Denotes text v := by
  cases text with
  | none => simp [readInput, Denotes]
  | some t => cases h : Json.read t <;> simp [readInput, Denotes, h, Except.mapError]

theorem Denotes.isReadable {text : Option String} {v : Value} (h : Denotes text v) : v.IsReadable := by
  obtain ⟨t, -, hread⟩ := h
  exact Json.isReadable_of_read hread

section Samples

variable (session : Session) {text : Option String} (title : Option String)

end Samples

section Schemas

variable (session : Session) {text : Option String}

end Schemas

end SchemaForge.Session
