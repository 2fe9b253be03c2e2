import SchemaForge.Proofs.Json.LongNumerals
import SchemaForge.Session

/-!
The beginning of a session. Every seed that is read or refused as malformed begins a session: with the object
that it denotes, in normal form, or with the empty document. A seed that is refused for an integer of too many
digits begins none, and it has a row of so many digits.
-/

namespace SchemaForge.Session

/-- The document that a seed stands for: the normal form of the object that it denotes, or the empty
document. -/
def seeded (seed : String) : Value :=
  match Json.read seed with
  | .ok (.object ms) => Schema.normalize (.object ms)
  | _ => Schema.emptyDocument

/-- A session begins with a document, and with nothing told and nothing pending if it is watched. -/
def BeginsWith (seed : String) (watched : Bool) (doc : Value) : Prop :=
  ∃ notices, start (some seed) watched =
    .ok (⟨⟨doc, .initial, 1, []⟩, if watched then some .idle else none⟩, notices)

section Seeds

variable {seed : String} (watched : Bool)

theorem beginsWith_of_document {doc : Option Value} {notices : List Notice} {prepared : Value}
    (h : seedDocument (some seed) = .ok (doc, notices))
    (hdoc : prepare (doc.getD Schema.emptyDocument) = .ok prepared) :
    BeginsWith seed watched prepared := by
  refine ⟨notices, ?_⟩
  simp only [start, h, ok_bind, Editor.new, hdoc]
  rfl

theorem prepare_emptyDocument : prepare Schema.emptyDocument = .ok Schema.emptyDocument := rfl

/-- A text that is read begins a session, be its value an object or not. -/
theorem beginsWith_of_read {v : Value} (hne : seed ≠ "") (h : Json.read seed = .ok v) :
    BeginsWith seed watched (seeded seed) := by
  rw [seeded, h]
  cases v with
  | object ms =>
      have hdocument : seedDocument (some seed) = .ok (some (.object ms), []) := by
        simp only [seedDocument, if_neg hne, h]
      exact beginsWith_of_document watched hdocument rfl
  | _ =>
      have hdocument : seedDocument (some seed) = .ok (none, [.seedNotObject]) := by
        simp only [seedDocument, if_neg hne, h]
      exact beginsWith_of_document watched hdocument prepare_emptyDocument

/-- A malformed text begins one with the empty document. -/
theorem beginsWith_of_malformed {defect : Json.Defect} {place : Json.Place} (hne : seed ≠ "")
    (h : Json.read seed = .error (.malformed defect place)) :
    BeginsWith seed watched (seeded seed) := by
  have hdocument : seedDocument (some seed) = .ok (none, [.seedUnread (.malformed defect place)]) := by
    simp only [seedDocument, if_neg hne, h]
  rw [seeded, h]
  exact beginsWith_of_document watched hdocument prepare_emptyDocument

/-- The empty seed counts as none. -/
theorem beginsWith_blank : BeginsWith "" watched (seeded "") :=
  beginsWith_of_document watched rfl prepare_emptyDocument

/-- No session begins with a text that is refused for an integer of too many digits. -/
theorem start_of_tooLong {n : Nat} (h : Json.read seed = .error (.numeralTooLong n)) :
    start (some seed) watched = .error (.numeralTooLong n) := by
  have hne : seed ≠ "" := by
    rintro rfl
    cases h
  have hdocument : seedDocument (some seed) = .error (.numeralTooLong n) := by
    simp only [seedDocument, if_neg hne, h]
  rw [start, hdocument]
  rfl

end Seeds

/-- A seed begins a session, with the object that it denotes or with the empty document, unless it is refused
for an integer of too many digits. Then no session begins, and the seed has a row of so many digits. A seed that
pairs its halves is meant. -/
theorem start_seed (seed : String) (watched : Bool) :
    ((∀ n, Json.read seed ≠ .error (.numeralTooLong n)) → BeginsWith seed watched (seeded seed)) ∧
      ∀ n, Json.read seed = .error (.numeralTooLong n) →
        start (some seed) watched = .error (.numeralTooLong n) ∧ Json.HasLongRow seed.toList n := by
  refine ⟨fun hshort => ?_, fun n hlong =>
    ⟨start_of_tooLong watched hlong, Json.hasLongRow_of_read hlong⟩⟩
  rcases eq_or_ne seed "" with rfl | hne
  · exact beginsWith_blank watched
  · cases hread : Json.read seed with
    | ok v => exact beginsWith_of_read watched hne hread
    | error error =>
        cases error with
        | malformed defect place => exact beginsWith_of_malformed watched hne hread
        | numeralTooLong n => exact absurd hread (hshort n)

def ones (count : Nat) : String := String.ofList (List.replicate count '1')

theorem wholePart_ones (k : Nat) : Json.WholePart (List.replicate (k + 1) '1') := by
  rw [List.replicate_succ]
  refine .row (by decide) fun d hd => ?_
  rw [← List.replicate_succ] at hd
  rw [List.eq_of_mem_replicate hd]
  rfl

theorem read_ones {k : Nat} (h : Numeric.mostDigits ≤ k) :
    Json.read (ones (k + 1)) = .error (.numeralTooLong (k + 1)) := by
  have hread := Json.read_wholePart (wholePart_ones k) (by rw [List.length_replicate]; omega)
  rwa [List.length_replicate] at hread

/-- A list and the empty object begin a session, and an integer with one digit too many begins none. -/
theorem start_seed_list :
    BeginsWith "[1, \"a\"]" true Schema.emptyDocument ∧
      BeginsWith "\x7b\x7d" true (Schema.normalize (.object [])) ∧
      start (some (ones 4301)) true = .error (.numeralTooLong 4301) ∧
      Json.HasLongRow (ones 4301).toList 4301 := by
  have hlist : Json.read "[1, \"a\"]" = .ok (.array [.int 1, .str "a"]) := by decide +kernel
  have hempty : Json.read "\x7b\x7d" = .ok (.object []) := by decide +kernel
  have hlong : Json.read (ones 4301) = .error (.numeralTooLong 4301) := read_ones (Nat.le_refl 4300)
  have hbegins := (start_seed "[1, \"a\"]" true).1 (by rw [hlist]; simp)
  have hobject := (start_seed "\x7b\x7d" true).1 (by rw [hempty]; simp)
  rw [seeded, hlist] at hbegins
  rw [seeded, hempty] at hobject
  exact ⟨hbegins, hobject, (start_seed (ones 4301) true).2 _ hlong⟩

/-- No session begins with an integer of 4301 digits, although it is no object. -/
theorem start_ones : start (some (ones 4301)) true = .error (.numeralTooLong 4301) :=
  start_of_tooLong true (read_ones (Nat.le_refl 4300))

end SchemaForge.Session
