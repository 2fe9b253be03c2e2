import SchemaForge.Proofs.Editor.Heredity
import SchemaForge.Proofs.Json.Reading
import SchemaForge.Proofs.Path.Grammar

/-!
The text of a document denotes the document. Every document that is reached can be written and read again as
long as its keys are texts, in each of the styles that an indent by a number of spaces stands for. A key that
is no text is written like the text of the same characters, so that it does not come back.
-/

namespace SchemaForge.Editor

/-! ### Styles -/

/-- An indent by none or by a number of spaces. -/
inductive IsIndent : Value → Prop where
  | none : IsIndent .null
  | spaces {i : Int} (nonneg : 0 ≤ i) : IsIndent (.int i)

theorem style_int_of_fits {memory i : Int} (nonneg : 0 ≤ i) (isCount : i ≤ mostSpaces) (fits : i < memory) :
    style memory (.int i) = .ok (.indented (List.replicate i.toNat ' ')) := by
  have hcount : ¬(i < -mostSpaces - 1 ∨ mostSpaces < i) := by
    simp only [mostSpaces] at isCount ⊢
    omega
  simp only [style, if_neg hcount, if_neg (Int.not_le.mpr fits)]

theorem exists_style_int_of_large {memory i : Int} (large : mostSpaces < i ∨ memory ≤ i) :
    ∃ fault, style memory (.int i) = .error fault := by
  unfold style
  dsimp only
  split
  · exact ⟨_, rfl⟩
  · next hcount =>
      rw [if_pos (large.resolve_left fun h => hcount (.inr h))]
      exact ⟨_, rfl⟩

/-- Such an indent puts nothing but white space beside the separators, unless it is no count or no memory holds it. -/
theorem IsIndent.exists_style {indent : Value} (h : IsIndent indent) (memory : Int) :
    (∃ s, style memory indent = .ok s ∧ s.IsPlain) ∨
      ∃ i fault, indent = .int i ∧ (mostSpaces < i ∨ memory ≤ i) ∧ style memory indent = .error fault := by
  cases h with
  | none => exact .inl ⟨.compact, rfl, Json.isPlain_compact⟩
  | @spaces i nonneg =>
      by_cases large : mostSpaces < i ∨ memory ≤ i
      · obtain ⟨fault, hfault⟩ := exists_style_int_of_large large
        exact .inr ⟨i, fault, rfl, large, hfault⟩
      · rw [not_or, Int.not_lt, Int.not_le] at large
        refine .inl ⟨_, style_int_of_fits nonneg large.1 large.2, Json.isPlain_indented fun c hc => ?_⟩
        rw [List.eq_of_mem_replicate hc]
        rfl

/-- A document that can be read is read from its text, if one can be made. -/
theorem read_toJson {editor : Editor} (h : editor.document.IsReadable) {indent : Value}
    (isIndent : IsIndent indent) (memory : Int) :
    (∃ text, editor.toJson indent memory = .ok text ∧ Json.read text = .ok editor.document) ∨
      ∃ i fault, indent = .int i ∧ (mostSpaces < i ∨ memory ≤ i) ∧
        editor.toJson indent memory = .error fault := by
  unfold toJson
  split
  · next text heq =>
      rw [heq] at h ⊢
      exact .inl ⟨_, rfl, Json.read_write Json.isPlain_compact h⟩
  · rcases isIndent.exists_style memory with ⟨s, hs, plain⟩ | ⟨i, fault, rfl, large, hfault⟩
    · rw [hs]
      exact .inl ⟨_, rfl, Json.read_write plain h⟩
    · rw [hfault]
      exact .inr ⟨i, fault, rfl, large, rfl⟩

/-! ### Runs -/

/-- An operation that a text describes, and that writes texts as keys. -/
def IsDescribed (doc : Value) (operation : Operation) : Prop :=
  (∃ description, Json.Denoted description ∧ Operation.ofValue description = .ok operation) ∧
    WritesKeys Scalar.IsText doc operation

theorem isReadable_of_reached {editor : Editor} (reached : ReachedBy Json.Denoted IsDescribed editor) :
    editor.document.IsReadable := by
  refine hereditary_of_reached Value.hereditary_isReadable (reached.mono (fun v => Json.denoted_iff.mp) ?_)
  rintro doc operation ⟨⟨description, hdescription, hoperation⟩, texts⟩
  exact ⟨Operation.brought_of_ofValue Value.hereditary_isReadable Path.isReadable_of_parse
    (Json.denoted_iff.mp hdescription) hoperation, texts⟩

/-- The text of every document that is reached is read as the document, with its keys in their order, unless
it is to be indented by a number that is no count, or by as many spaces as no memory holds, however many these are. -/
theorem read_toJson_of_reached {editor : Editor} (reached : ReachedBy Json.Denoted IsDescribed editor)
    {indent : Value} (isIndent : IsIndent indent) (memory : Int) :
    (∃ text, editor.toJson indent memory = .ok text ∧ Json.read text = .ok editor.document) ∨
      ∃ i fault, indent = .int i ∧ (mostSpaces < i ∨ memory ≤ i) ∧
        editor.toJson indent memory = .error fault :=
  read_toJson (isReadable_of_reached reached) isIndent memory

def listing (v : Value) : Value := .object [(.str "xs", .array [v]), (.str "type", .str "string")]

/-- An index may be written, since it leads into a list, and a value that is no number comes back too. -/
theorem read_toJson_of_reached_listing :
    ∃ text, (⟨listing (.float .nan), OpenNodes.initial, 1, []⟩ : Editor).toJson (.int 2) = .ok text ∧
      Json.read text = .ok (listing (.float .nan)) := by
  have isNew : Editor.new (some (listing (.int 0))) =
      .ok ⟨listing (.int 0), OpenNodes.initial, 1, []⟩ := rfl
  have isStart : Json.Denoted (listing (.int 0)) :=
    ⟨"\x7b\"xs\": [0], \"type\": \"string\"\x7d", by decide +kernel⟩
  have start := @ReachedBy.new Json.Denoted IsDescribed _ _ isNew fun v heq =>
    Option.some.inj heq ▸ isStart
  have isDenoted : Json.Denoted (setDescription [.str "xs", .int 0] (.float .nan)) :=
    ⟨"\x7b\"op\": \"set_value\", \"path\": [\"xs\", 0], \"value\": NaN\x7d", by decide +kernel⟩
  have isDescribed : IsDescribed (listing (.int 0))
      (.setValue (.array [.str "xs", .int 0]) (.float .nan)) := by
    refine ⟨⟨_, isDenoted, rfl⟩, fun _ p hp q s ms k heq hget _ => ?_⟩
    cases hp
    have hsplit : [.str "xs"] ++ [.int 0] = q ++ [s] := heq
    obtain ⟨rfl, -⟩ := List.append_singleton_inj.mp hsplit
    cases hget
  have written := start.perform isDescribed
  rcases read_toJson_of_reached written (.spaces (by decide : (0 : Int) ≤ 2)) usualMemory with
    h | ⟨i, fault, heq, large, -⟩
  · exact h
  · cases heq
    exact absurd large (by decide)

/-- An integer as a key and the text of the same digits are written alike, and one of the two comes back. -/
theorem read_toJson_integer_key :
    ∃ editor text, Editor.new (some (.object [])) = .ok editor ∧
      (editor.afterEach [setDescription [.int 1] (.str "x"), setDescription [.str "1"] (.str "y")]).toJson
        .null = .ok text ∧
      Json.read text = .ok (.object [(.str "type", .str "string"), (.str "1", .str "y")]) ∧
      (editor.afterEach [setDescription [.int 1] (.str "x"),
        setDescription [.str "1"] (.str "y")]).document =
          .object [(.str "type", .str "string"), (.int 1, .str "x"), (.str "1", .str "y")] :=
  ⟨_, _, rfl, rfl, by decide +kernel, rfl⟩

end SchemaForge.Editor
