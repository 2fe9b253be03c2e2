import SchemaForge.Proofs.Editor.TreeView
import SchemaForge.Session

/-!
Looking at a session never changes what is edited in it. Its moves are of two kinds: those that edit its document, and
those that open and close nodes of the tree view, look at it, or give out, tell and drop what was edited. A move of the
second kind leaves the document and the numbers for new fields alone, and nothing else of a session has a part in a
move of the first kind. So a run shows the same replies and documents as its edits alone.
-/

namespace SchemaForge.Session

open Operation (asksToToggle)

/-- A move that edits: an operation, or several, that opens and closes nothing, or an import. -/
inductive EditMove where
  | apply (description : Value) (edits : asksToToggle description = false)
  | applyAll (descriptions : Value)
      (edits : ∀ ds, descriptions.elements = .ok ds → ∀ d ∈ ds, asksToToggle d = false)
  | importJson (text title : Option String)
  | importSchema (text : Option String)

/-- A move that edits nothing. -/
inductive ViewMove where
  | toggle (description : Value) (toggles : asksToToggle description = true)
  | isOpen (path : Value)
  | exportText (indent : Value)
  | flush
  | close
  | cancel

inductive Move where
  | edit (move : EditMove)
  | view (move : ViewMove)

def EditMove.request : EditMove → Request
  | .apply description _ => .apply description
  | .applyAll descriptions _ => .applyAll descriptions
  | .importJson text title => .importJson text title
  | .importSchema text => .importSchema text

/-- What a session is asked for in a move that edits nothing, if that is a request: the tree view is looked at
without one. -/
def ViewMove.request? : ViewMove → Option Request
  | .toggle description _ => some (.apply description)
  | .isOpen _ => none
  | .exportText indent => some (.exportText indent)
  | .flush => some .flush
  | .close => some .close
  | .cancel => some .cancel

def afterView (session : Session) (move : ViewMove) : Session :=
  move.request?.elim session fun request => (session.perform request).session

/-- What is seen of a move that edits: the reply, and the document after it. -/
structure Seen where
  reply : Except Fault Value
  document : Value

/-- What is seen of the moves of a run that edit. -/
def seen (session : Session) : List Move → List Seen
  | [] => []
  | .edit move :: moves =>
      let outcome := session.perform move.request
      ⟨outcome.reply, outcome.session.editor.document⟩ :: outcome.session.seen moves
  | .view move :: moves => (session.afterView move).seen moves

def editMoves : List Move → List EditMove
  | [] => []
  | .edit move :: moves => move :: editMoves moves
  | .view _ :: moves => editMoves moves

/-! ### Moves that edit nothing -/

theorem sameContent_flush (session : Session) : session.flush.session.editor.SameContent session.editor := by
  unfold flush
  split <;> exact .refl _

theorem sameContent_afterView (session : Session) (move : ViewMove) :
    (session.afterView move).editor.SameContent session.editor := by
  cases move with
  | toggle description toggles => exact Editor.sameContent_apply_toggle session.editor toggles
  | isOpen path => exact .refl _
  | exportText indent => exact .refl _
  | flush => exact sameContent_flush session
  | close => exact sameContent_flush session
  | cancel => exact .refl _

/-! ### Moves that edit -/

/-- Two outcomes of which the same is seen, and that leave the same content behind. -/
structure Outcome.SameContent (o p : Outcome) : Prop where
  reply : o.reply = p.reply
  editor : o.session.editor.SameContent p.session.editor

theorem sameContent_after {o p : Editor.Outcome} (same : o.SameContent p) (s t : Session) (notices : List Notice) :
    (s.after o notices).SameContent (t.after p notices) := ⟨same.reply, same.editor⟩

section Edits

variable {s t : Session} (h : s.editor.SameContent t.editor)

include h

theorem sameContent_unchanged (notices : List Notice) (reply : Except Fault Value) :
    (s.unchanged notices reply).SameContent (t.unchanged notices reply) := ⟨rfl, h⟩

theorem sameContent_replace (root : Value) (notices : List Notice) :
    (s.replace root notices).SameContent (t.replace root notices) := by
  have hreplaced := @Editor.SameContent.perform _ _ h (.replaceDocument root) rfl
  exact ⟨congrArg (fun reply => reply.map fun _ => Value.bool true) hreplaced.reply, hreplaced.editor⟩

theorem sameContent_importJson (text title : Option String) :
    (s.importJson text title).SameContent (t.importJson text title) := by
  unfold importJson
  split
  · exact sameContent_unchanged h _ _
  · exact sameContent_unchanged h _ _
  · dsimp only
    split
    · exact sameContent_unchanged h _ _
    · exact sameContent_replace h _ _

theorem sameContent_importSchema (text : Option String) :
    (s.importSchema text).SameContent (t.importSchema text) := by
  unfold importSchema
  split
  · exact sameContent_unchanged h _ _
  · exact sameContent_replace h _ _
  · exact sameContent_unchanged h _ _

/-- A move that edits comes to the same with any tree view and any notifier. -/
theorem sameContent_perform (move : EditMove) :
    (s.perform move.request).SameContent (t.perform move.request) := by
  cases move with
  | apply description edits => exact sameContent_after (h.apply edits) s t []
  | applyAll descriptions edits => exact sameContent_after (h.applyAll edits) s t []
  | importJson text title => exact sameContent_importJson h text title
  | importSchema text => exact sameContent_importSchema h text

end Edits

/-! ### Runs -/

/-- Of a run is seen what is seen of its edits alone, also if they are carried out in another session with the same
content. -/
theorem seen_eq_seen_editMoves (moves : List Move) :
    ∀ {s t : Session}, s.editor.SameContent t.editor → s.seen moves = t.seen ((editMoves moves).map .edit) := by
  induction moves with
  | nil => exact fun _ => rfl
  | cons move moves ih =>
      intro s t h
      cases move with
      | edit move =>
          have hmove := sameContent_perform h move
          simp only [seen, editMoves, List.map_cons, hmove.reply, hmove.editor.document, ih hmove.editor]
      | view move => exact ih ((sameContent_afterView s move).trans h)

/-- The tree view, and whoever watches, have no influence on what is edited. Two runs with the same edits in the same
order, and any other moves between them, show the same replies or faults and the same documents, if they begin with
the same document and the same number for the next field. -/
theorem seen_eq_of_editMoves_eq {s t : Session} (document : s.editor.document = t.editor.document)
    (nextField : s.editor.nextField = t.editor.nextField) {xs ys : List Move} (same : editMoves xs = editMoves ys) :
    s.seen xs = t.seen ys := by
  calc s.seen xs = t.seen ((editMoves xs).map .edit) := seen_eq_seen_editMoves xs ⟨document, nextField⟩
    _ = t.seen ((editMoves ys).map .edit) := by rw [same]
    _ = t.seen ys := (seen_eq_seen_editMoves ys (.refl _)).symm

def additionBelow : Value :=
  .object [(.str "op", .str "add_child_field"), (.str "properties_path", .array [.str "properties"])]

def renamingToA : Value :=
  .object [(.str "op", .str "rename"), (.str "properties_path", .array [.str "properties"]),
    (.str "old_name", .str "field_1"), (.str "new_name", .str "a")]

def closingRoot : Value :=
  .object [(.str "op", .str "toggle_open"), (.str "path", .array [.str "properties"]), (.str "value", .bool false)]

/-- A session that nobody watches, in which the root is open. -/
def unwatched : Session := ⟨⟨Schema.emptyDocument, .initial, 1, []⟩, none⟩

def watched : Session := ⟨⟨Schema.emptyDocument, [], 1, [0]⟩, some .idle⟩

/-- A field is added and renamed, without anything else. -/
def editsAlone : List Move := [.edit (.apply additionBelow rfl), .edit (.apply renamingToA rfl)]

def editsAmongViews : List Move :=
  [.view (.toggle closingRoot rfl), .edit (.apply additionBelow rfl), .view .flush,
    .view (.isOpen (.str "properties")), .edit (.apply renamingToA rfl), .view .close]

theorem seen_eq_of_editMoves_eq_renamed :
    unwatched.seen editsAlone = watched.seen editsAmongViews ∧
      (unwatched.seen editsAlone).map (·.reply) = [.ok (.str "field_1"), .ok (.bool true)] :=
  ⟨seen_eq_of_editMoves_eq rfl rfl rfl, rfl⟩

end SchemaForge.Session
