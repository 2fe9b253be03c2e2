import SchemaForge.Proofs.Json.RoundTrip

/-!
The control characters of a written text. Texts have theirs escaped and no other scalar has any, so the only
ones are those that the style puts between the parts. A minified text is a single line, therefore, and an
indented one has line feeds and nothing else of the kind.
-/

namespace SchemaForge.Json

open Numeric (digits)

/-- A text without control characters. -/
def NoControls (cs : List Char) : Prop := ∀ c ∈ cs, 0x20 ≤ c.toNat

instance (cs : List Char) : Decidable (NoControls cs) := List.decidableBAll _ cs

theorem noControls_cons {c : Char} {cs : List Char} :
    NoControls (c :: cs) ↔ 0x20 ≤ c.toNat ∧ NoControls cs :=
  List.forall_mem_cons

theorem noControls_append {cs ds : List Char} : NoControls (cs ++ ds) ↔ NoControls cs ∧ NoControls ds :=
  List.forall_mem_append

/-! ### Texts -/

theorem noControls_escapeChar (c : Char) : NoControls (escapeChar c) := by
  have hletter : ∀ {letter : Char}, escapedChar? letter = some c → 0x20 ≤ letter.toNat := by
    intro letter hescaped
    unfold escapedChar? at hescaped
    split at hescaped <;> first | decide | cases hescaped
  have hhex : ∀ n < 0x20, NoControls (Text.hex 4 n) := by decide
  rcases escapeChar_cases c with ⟨letter, -, hescaped, heq⟩ | ⟨hcontrol, heq⟩ | ⟨-, -, hcontrol, heq⟩
  · rw [heq]
    exact noControls_cons.mpr ⟨by decide, List.forall_mem_singleton.mpr (hletter hescaped)⟩
  · rw [heq]
    exact noControls_cons.mpr ⟨by decide, noControls_cons.mpr ⟨by decide, hhex _ hcontrol⟩⟩
  · rw [heq]
    exact List.forall_mem_singleton.mpr (Nat.le_of_not_lt hcontrol)

theorem noControls_writeText (cs : List Char) : NoControls (writeText cs) := by
  refine noControls_cons.mpr ⟨by decide, noControls_append.mpr ⟨fun c hc => ?_, by decide⟩⟩
  obtain ⟨d, -, hd⟩ := List.mem_flatMap.mp hc
  exact noControls_escapeChar d c hd

/-! ### Numbers and words -/

theorem noControls_of_isDigit {cs : List Char} (h : ∀ c ∈ cs, c.isDigit = true) : NoControls cs := by
  intro c hc
  have hdigit := h c hc
  rw [Char.isDigit, Bool.and_eq_true, decide_eq_true_iff] at hdigit
  have hle : 48 ≤ c.toNat := UInt32.le_iff_toNat_le.mp hdigit.1
  omega

theorem noControls_digits (n : Nat) : NoControls (digits n) :=
  noControls_of_isDigit fun _ => Numeric.isDigit_of_mem_digits

theorem noControls_zeros (n : Nat) : NoControls (List.replicate n '0') :=
  noControls_of_isDigit fun _ => isDigit_of_mem_zeros

theorem noControls_intText (i : Int) : NoControls (Numeric.intText i) := by
  unfold Numeric.intText
  split
  · exact noControls_cons.mpr ⟨by decide, noControls_digits _⟩
  · exact noControls_digits _

theorem noControls_positional {ds : List Char} (hds : NoControls ds) (lead : Int) :
    NoControls (Numeric.Layout.positional ds lead) := by
  have hpadded : ∀ n, NoControls (ds ++ List.replicate n '0') := fun n =>
    noControls_append.mpr ⟨hds, noControls_zeros n⟩
  unfold Numeric.Layout.positional
  split
  · exact noControls_cons.mpr
      ⟨by decide, noControls_cons.mpr ⟨by decide, noControls_append.mpr ⟨noControls_zeros _, hds⟩⟩⟩
  · refine noControls_append.mpr ⟨fun c hc => hpadded _ c (List.mem_of_mem_take hc),
      noControls_cons.mpr ⟨by decide, ?_⟩⟩
    split
    · decide
    · exact fun c hc => hpadded _ c (List.mem_of_mem_drop hc)

theorem noControls_scientific {ds : List Char} (hds : NoControls ds) (layout : Numeric.Layout) (lead : Int) :
    NoControls (layout.scientific ds lead) := by
  have hfirst : NoControls (ds.take 1) := fun c hc => hds c (List.mem_of_mem_take hc)
  have hrest : NoControls (ds.drop 1) := fun c hc => hds c (List.mem_of_mem_drop hc)
  have hsign : 0x20 ≤ (if lead < 0 then '-' else '+').toNat := by split <;> decide
  have hpower : ∀ k, NoControls ('e' :: (if lead < 0 then '-' else '+') ::
      (List.replicate k '0' ++ digits lead.natAbs)) := fun k =>
    noControls_cons.mpr ⟨by decide, noControls_cons.mpr
      ⟨hsign, noControls_append.mpr ⟨noControls_zeros k, noControls_digits _⟩⟩⟩
  unfold Numeric.Layout.scientific
  refine noControls_append.mpr ⟨noControls_append.mpr ⟨hfirst, ?_⟩, hpower _⟩
  split
  · exact List.forall_mem_nil _
  · exact noControls_cons.mpr ⟨by decide, hrest⟩

theorem noControls_finiteText (negative : Bool) (units : Nat) :
    NoControls (Numeric.finiteText negative units) := by
  have htext : ∀ d, NoControls (Numeric.Layout.standard.text d) := by
    intro d
    unfold Numeric.Layout.text
    dsimp only
    split
    · exact noControls_positional (noControls_digits _) _
    · exact noControls_scientific (noControls_digits _) _ _
  unfold Numeric.finiteText
  split
  · exact noControls_cons.mpr ⟨by decide, htext _⟩
  · exact htext _

theorem noControls_writeScalar (s : Scalar) : NoControls (writeScalar s) := by
  cases s with
  | null => decide
  | bool b => cases b <;> decide
  | int i => exact noControls_intText i
  | float x =>
      cases x with
      | nan => decide
      | infinite negative => cases negative <;> decide
      | finite negative units h => exact noControls_finiteText negative units
  | str s => exact noControls_writeText s.toList

/-! ### Values -/

/-- The characters that a style puts between the parts of a text. -/
inductive Style.Puts (style : Style) (c : Char) : Prop where
  | item (h : c ∈ style.itemSeparator)
  | key (h : c ∈ style.keySeparator)
  | lineFeed {unit : List Char} (indented : style.indent = some unit) (h : c = '\n')
  | indent {unit : List Char} (indented : style.indent = some unit) (h : c ∈ unit)

/-- A text whose control characters are all put there by the style. -/
def Style.PutsControls (style : Style) (cs : List Char) : Prop := ∀ c ∈ cs, c.toNat < 0x20 → style.Puts c

namespace Style

variable {style : Style}

theorem putsControls_cons {c : Char} {cs : List Char} :
    style.PutsControls (c :: cs) ↔ (c.toNat < 0x20 → style.Puts c) ∧ style.PutsControls cs :=
  List.forall_mem_cons

theorem putsControls_append {cs ds : List Char} :
    style.PutsControls (cs ++ ds) ↔ style.PutsControls cs ∧ style.PutsControls ds :=
  List.forall_mem_append

theorem putsControls_of_noControls {cs : List Char} (h : NoControls cs) : style.PutsControls cs :=
  fun c hc hcontrol => absurd (h c hc) (Nat.not_le_of_lt hcontrol)

theorem putsControls_lineBreak (level : Nat) : style.PutsControls (style.lineBreak level) := by
  intro c hc _
  unfold lineBreak at hc
  split at hc
  · cases hc
  · next unit hunit =>
      rcases List.mem_cons.mp hc with rfl | hc
      · exact .lineFeed hunit rfl
      · obtain ⟨cs, hcs, hc⟩ := List.mem_flatten.mp hc
        exact .indent hunit (List.eq_of_mem_replicate hcs ▸ hc)

theorem putsControls_furtherItems {level : Nat} {closing : Char} (hclosing : 0x20 ≤ closing.toNat)
    {items : List (List Char)} (h : ∀ item ∈ items, style.PutsControls item) :
    style.PutsControls (furtherItems style level closing items) := by
  induction items with
  | nil =>
      exact putsControls_append.mpr
        ⟨putsControls_lineBreak level, putsControls_of_noControls (List.forall_mem_singleton.mpr hclosing)⟩
  | cons item items ih =>
      obtain ⟨hitem, hitems⟩ := List.forall_mem_cons.mp h
      have hseparator : style.PutsControls style.itemSeparator := fun _ hc _ => .item hc
      exact putsControls_append.mpr ⟨putsControls_append.mpr
        ⟨putsControls_append.mpr ⟨hseparator, putsControls_lineBreak _⟩, hitem⟩, ih hitems⟩

theorem putsControls_enclose {level : Nat} {opening closing : Char} (hopening : 0x20 ≤ opening.toNat)
    (hclosing : 0x20 ≤ closing.toNat) {items : List (List Char)}
    (h : ∀ item ∈ items, style.PutsControls item) :
    style.PutsControls (enclose style level opening closing items) := by
  have hfirst : opening.toNat < 0x20 → style.Puts opening := fun hlt =>
    absurd hopening (Nat.not_le_of_lt hlt)
  cases items with
  | nil =>
      exact putsControls_cons.mpr
        ⟨hfirst, putsControls_of_noControls (List.forall_mem_singleton.mpr hclosing)⟩
  | cons item items =>
      obtain ⟨hitem, hitems⟩ := List.forall_mem_cons.mp h
      rw [enclose_cons]
      have hfurther := @putsControls_furtherItems style level closing hclosing items hitems
      exact putsControls_cons.mpr ⟨hfirst, putsControls_append.mpr
        ⟨putsControls_append.mpr ⟨putsControls_lineBreak _, hitem⟩, hfurther⟩⟩

end Style

theorem writeElements_eq_map (style : Style) (level : Nat) (xs : List Value) :
    writeElements style level xs = xs.map (writeValue style level) := by
  induction xs with
  | nil => rw [writeElements, List.map_nil]
  | cons x xs ih => rw [writeElements, ih, List.map_cons]

theorem writeMembers_eq_map (style : Style) (level : Nat) (ms : Members) :
    writeMembers style level ms = ms.map (writeMember style level) := by
  induction ms with
  | nil => rw [writeMembers, List.map_nil]
  | cons m ms ih => rw [writeMembers_cons, ih, List.map_cons]

/-- The control characters of a written value are those that the style puts between the parts. -/
theorem putsControls_writeValue (style : Style) {v : Value} (h : v.IsJson) (level : Nat) :
    style.PutsControls (writeValue style level v) := by
  induction h generalizing level with
  | scalar s => exact Style.putsControls_of_noControls (noControls_writeScalar s)
  | array _ ih =>
      rw [writeValue, writeElements_eq_map]
      exact Style.putsControls_enclose (by decide) (by decide)
        (List.forall_mem_map.mpr fun x hx => ih x hx _)
  | object text unique _ ih =>
      rw [writeValue, writeMembers_eq_map]
      refine Style.putsControls_enclose (by decide) (by decide) (List.forall_mem_map.mpr fun m hm => ?_)
      have hkey : style.PutsControls (writeKey m.1) :=
        Style.putsControls_of_noControls (noControls_writeText _)
      have hseparator : style.PutsControls style.keySeparator := fun _ hc _ => .key hc
      exact Style.putsControls_append.mpr ⟨Style.putsControls_append.mpr ⟨hkey, hseparator⟩, ih m hm _⟩

/-- A minified text has no control characters at all. -/
theorem noControls_writeValue_minified {v : Value} (h : v.IsJson) (level : Nat) :
    NoControls (writeValue .minified level v) := by
  intro c hc
  by_contra hcontrol
  cases putsControls_writeValue .minified h level c hc (Nat.lt_of_not_le hcontrol) with
  | item hc =>
      obtain rfl := List.mem_singleton.mp hc
      exact hcontrol (by decide)
  | key hc =>
      obtain rfl := List.mem_singleton.mp hc
      exact hcontrol (by decide)
  | lineFeed indented _ => cases indented
  | indent indented _ => cases indented

/-- A text that is indented by spaces has no control character but the line feed. -/
theorem eq_lineFeed_of_mem_writeValue_indented {v : Value} (h : v.IsJson) {unit : List Char}
    (hunit : NoControls unit) {level : Nat} {c : Char} (hc : c ∈ writeValue (.indented unit) level v)
    (hcontrol : c.toNat < 0x20) : c = '\n' := by
  have hvisible : ¬ 0x20 ≤ c.toNat := Nat.not_le_of_lt hcontrol
  cases putsControls_writeValue (.indented unit) h level c hc hcontrol with
  | item hc =>
      obtain rfl := List.mem_singleton.mp hc
      exact absurd (by decide) hvisible
  | key hc =>
      rcases List.mem_pair.mp hc with rfl | rfl
      · exact absurd (by decide) hvisible
      · exact absurd (by decide) hvisible
  | lineFeed _ heq => exact heq
  | indent indented hc =>
      cases indented
      exact absurd (hunit c hc) hvisible

end SchemaForge.Json
