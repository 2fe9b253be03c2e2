/-!
Which nodes of the tree view are open, by the joined path of the node. The entries are kept in the order of
their keys, so that two records with the same entries are the same record.
-/

namespace SchemaForge

/-- The entries of the tree view, sorted by key. -/
abbrev OpenNodes := List (String × Bool)

namespace OpenNodes

def find? (key : String) : OpenNodes → Option Bool
  | [] => none
  | (k, b) :: rest => if k = key then some b else find? key rest

def insert (key : String) (isOpen : Bool) : OpenNodes → OpenNodes
  | [] => [(key, isOpen)]
  | (k, b) :: rest =>
      if key < k then (key, isOpen) :: (k, b) :: rest
      else if k = key then (key, isOpen) :: rest
      else (k, b) :: insert key isOpen rest

def erase (key : String) (nodes : OpenNodes) : OpenNodes := nodes.filter fun e => e.1 ≠ key

/-- Moves the entry of one key to another one; an entry that was not there arrives open. -/
def move (old new : String) (nodes : OpenNodes) : OpenNodes :=
  insert new ((find? old nodes).getD true) (erase old nodes)

/-- Whether a node is open. One that has no entry is not. -/
def isOpen (key : String) (nodes : OpenNodes) : Bool := (find? key nodes).getD false

/-- The tree view at the beginning, with the root's properties open. -/
def initial : OpenNodes := [("properties", true)]

theorem find?_insert_self (key : String) (b : Bool) (nodes : OpenNodes) :
    find? key (insert key b nodes) = some b := by
  induction nodes with
  | nil => simp [insert, find?]
  | cons e rest ih =>
      obtain ⟨k, c⟩ := e
      simp only [insert]
      split
      · simp [find?]
      · split
        · simp [find?]
        · simp [find?, *]

theorem find?_insert_of_ne {key other : String} (h : key ≠ other) (b : Bool) (nodes : OpenNodes) :
    find? other (insert key b nodes) = find? other nodes := by
  induction nodes with
  | nil => simp [insert, find?, h]
  | cons e rest ih =>
      obtain ⟨k, c⟩ := e
      simp only [insert]
      split
      · simp [find?, h]
      · split
        · next hk => simp [find?, h, hk]
        · simp [find?, ih]

theorem find?_erase (key other : String) (nodes : OpenNodes) :
    find? other (erase key nodes) = if other = key then none else find? other nodes := by
  induction nodes with
  | nil => simp [erase, find?]
  | cons e rest ih =>
      obtain ⟨k, b⟩ := e
      rw [erase] at ih ⊢
      by_cases hk : k = key
      · subst hk
        rw [List.filter_cons_of_neg (by simp), ih]
        by_cases hother : other = k
        · simp [hother]
        · simp [find?, hother, Ne.symm hother]
      · rw [List.filter_cons_of_pos (by simpa using hk)]
        by_cases hother : k = other
        · subst hother
          simp [find?, hk]
        · rw [find?, if_neg hother, find?, if_neg hother, ih]

/-- After a move the entry is found at its new key, and no longer at the old one. -/
theorem find?_move (old new key : String) (nodes : OpenNodes) :
    find? key (move old new nodes) =
      if key = new then some ((find? old nodes).getD true)
      else if key = old then none else find? key nodes := by
  rw [move]
  by_cases hnew : key = new
  · rw [hnew, find?_insert_self, if_pos rfl]
  · rw [find?_insert_of_ne (Ne.symm hnew), find?_erase, if_neg hnew]

end OpenNodes

end SchemaForge
