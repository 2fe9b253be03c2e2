import SchemaForge.Proofs.Path.Failures
import SchemaForge.Proofs.Schema.Switched

/-!
What the switch for required fields leaves as it is. Beside the lists of required names it changes nothing: every
path that goes through none of them leads to a value of the same outline before and after. And what it writes or
removes does not depend on how it was set before, except that a list of names which had been removed comes back at
the end of its node.
-/

namespace SchemaForge.Schema

open Members (mapAt)

/-! ### Equal but for the place of the required names -/

/-- Two values that are equal, except that in an object the required names may stand at different places. -/
inductive MovedRequired : Value → Value → Prop where
  | same (v : Value) : MovedRequired v v
  | object {ms ns : Members}
      (order : Members.keys (Members.erase (.str "required") ms) =
        Members.keys (Members.erase (.str "required") ns))
      (present : Members.has (.str "required") ms = Members.has (.str "required") ns)
      (values : ∀ k v w, Members.find? k ms = some v → Members.find? k ns = some w → MovedRequired v w) :
      MovedRequired (.object ms) (.object ns)

section Switch

variable {a b : Bool}

theorem keys_erase_switchNames (required : Bool) (ps ms : Members) :
    Members.keys (Members.erase (.str "required") (switchNames required ps ms)) =
      Members.keys (Members.erase (.str "required") ms) := by
  cases required with
  | true => exact congrArg _ (Members.erase_insert _ _ _)
  | false => exact congrArg _ (Members.erase_erase _ _)

theorem find?_required_switchNames (required : Bool) (ps ms : Members) :
    Members.find? (.str "required") (switchNames required ps ms) = if required then some (allNames ps) else none := by
  cases required with
  | true => exact Members.find?_insert_self _ _ _
  | false => exact Members.find?_erase_self _ _

theorem keys_erase_mapAt (word : String) (f : Value → Value) (ms : Members) (k : Scalar) :
    Members.keys (Members.erase k (mapAt word f ms)) = Members.keys (Members.erase k ms) := by
  rw [Members.keys_erase, Members.keys_mapAt, Members.keys_erase]

/-- Values at a keyword, the one rewritten in two ways, are related if what the two ways make of it is. -/
theorem movedRequired_mapAt {word : String} {f g : Value → Value} {ms : Members}
    (h : ∀ u, (.str word, u) ∈ ms → MovedRequired (f u) (g u)) {k : Scalar} {v w : Value}
    (hv : Members.find? k (mapAt word f ms) = some v) (hw : Members.find? k (mapAt word g ms) = some w) :
    MovedRequired v w := by
  rw [Members.find?_mapAt_eq_map] at hv hw
  obtain ⟨u, hu, rfl⟩ := Option.map_eq_some_iff.mp hv
  rw [hu] at hw
  cases hw
  split
  · next hk => exact h u (hk ▸ Members.mem_of_find? ⟨word, hk⟩ hu)
  · exact .same u

/-- Properties that are rewritten in two ways are related if each of them is. -/
theorem movedRequired_map {f g : Value → Value} {ps : Members}
    (h : ∀ m ∈ ps, MovedRequired (f m.2) (g m.2)) :
    MovedRequired (.object (ps.map fun m => (m.1, f m.2))) (.object (ps.map fun m => (m.1, g m.2))) := by
  refine .object ?_ ?_ fun k v w hv hw => ?_
  · simp only [Members.keys_erase, Members.keys_map_values]
  · rw [Members.has, Members.has, Members.find?_map_values, Members.find?_map_values, Option.isSome_map,
      Option.isSome_map]
  · rw [Members.find?_map_values] at hv hw
    obtain ⟨u, hu, rfl⟩ := Option.map_eq_some_iff.mp hv
    rw [hu] at hw
    cases hw
    obtain ⟨l, hl, -⟩ := Members.exists_mem_of_find? hu
    exact h _ hl

/-- The switch set twice in the properties of a node, when it may be in each of them. -/
theorem movedRequired_switchedProperties {v : Value}
    (parts : v.WithParts fun u => MovedRequired (switchRequired b (switchRequired a u)) (switchRequired b u)) :
    MovedRequired (switchedProperties b (switchedProperties a v)) (switchedProperties b v) := by
  cases v with
  | object ps =>
      simp only [switchedProperties_eq_map, List.map_map]
      exact movedRequired_map (f := fun u => switchRequired b (switchRequired a u)) (parts.members ps rfl)
  | _ => exact .same _

/-- The switch set twice is the switch set once, but for the place of the required names. What is below a node is
settled by induction. -/
theorem movedRequired_switchRequired (a b : Bool) (v : Value) :
    MovedRequired (switchRequired b (switchRequired a v)) (switchRequired b v) := by
  refine v.part_induction (P := fun v => MovedRequired (switchRequired b (switchRequired a v)) (switchRequired b v))
    ?_ ?_
  · intro v hv
    rw [switchRequired_of_not_isObject a hv]
    exact .same _
  · intro ms ih
    rcases switchRequired_twice a b ms with ⟨ps, htype, hps, heq⟩ | ⟨htype, heq⟩ | heq
    · rw [heq, switchRequired_of_object b htype hps]
      refine .object ?_ ?_ fun k v w hv hw => ?_
      · simp only [keys_erase_switchNames, keys_erase_mapAt]
      · rw [Members.has, Members.has, find?_required_switchNames, find?_required_switchNames]
      · by_cases hk : k = .str "required"
        · -- Wherever the required names stand, they are those of the same properties.
          subst hk
          rw [find?_required_switchNames] at hv hw
          cases hv.symm.trans hw
          exact .same v
        · simp only [find?_switchNames_of_not_same _ _ _ (Scalar.str_same_eq_false_of_ne hk)] at hv hw
          exact movedRequired_mapAt (fun u hu => movedRequired_switchedProperties (ih _ hu)) hv hw
    · rw [heq, switchRequired_of_array b htype]
      refine .object ?_ ?_ fun k v w => movedRequired_mapAt fun u hu => (ih _ hu).self
      · rw [keys_erase_mapAt, keys_erase_mapAt]
      · rw [Members.has, Members.has, Members.find?_mapAt, Members.find?_mapAt, if_neg (by simp), if_neg (by simp)]
    · rw [heq]
      exact .same _

end Switch

/-! ### Paths beside the required names -/

/-- Two scalars that are equal, two lists of the same length, or two objects that have the same keys in the same order
once the required names are left out. -/
inductive SameOutline : Value → Value → Prop where
  | scalar (s : Scalar) : SameOutline (.scalar s) (.scalar s)
  | array {xs ys : List Value} (length : xs.length = ys.length) : SameOutline (.array xs) (.array ys)
  | object {ms ns : Members}
      (order : Members.keys (Members.erase (.str "required") ms) =
        Members.keys (Members.erase (.str "required") ns)) : SameOutline (.object ms) (.object ns)

theorem SameOutline.refl (v : Value) : SameOutline v v := by
  cases v with
  | scalar s => exact .scalar s
  | array xs => exact .array rfl
  | object ms => exact .object rfl

/-- What becomes of a part of a document: it stays, or it is a node or the properties of one, and the switch is set
in it. -/
inductive SwitchedPart (required : Bool) (v : Value) : Value → Prop where
  | same : SwitchedPart required v v
  | node : SwitchedPart required v (switchRequired required v)
  | fields : SwitchedPart required v (switchedProperties required v)

section Places

variable {required : Bool} {v w : Value}

theorem SwitchedPart.sameOutline (h : SwitchedPart required v w) : SameOutline v w := by
  cases h with
  | same => exact .refl v
  | node =>
      cases v with
      | object ms =>
          rcases switchRequired_cases required ms with ⟨ps, -, -, heq⟩ | ⟨-, heq⟩ | heq
          · rw [heq]
            exact .object (by rw [keys_erase_switchNames, keys_erase_mapAt])
          · rw [heq]
            exact .object (by rw [keys_erase_mapAt])
          · rw [heq]
            exact .refl _
      | _ =>
          rw [switchRequired_of_not_isObject required (by simp)]
          exact .refl _
  | fields =>
      cases v with
      | object ps =>
          rw [switchedProperties_eq_map]
          exact .object (by rw [Members.keys_erase, Members.keys_erase, Members.keys_map_values])
      | _ => exact .refl _

theorem exists_find?_mapAt {f : Value → Value} (hf : ∀ c, SwitchedPart required c (f c)) (word : String)
    (ms : Members) (k : Scalar) :
    ∃ g : Value → Value, (∀ c, SwitchedPart required c (g c)) ∧
      Members.find? k (mapAt word f ms) = (Members.find? k ms).map g := by
  refine ⟨_, fun c => ?_, Members.find?_mapAt_eq_map word f k ms⟩
  split
  · exact hf c
  · exact .same

theorem exists_find?_switchRequired (required : Bool) (ms : Members) {k : Scalar} (hk : k ≠ .str "required") :
    ∃ (ns : Members) (g : Value → Value), switchRequired required (.object ms) = .object ns ∧
      (∀ c, SwitchedPart required c (g c)) ∧ Members.find? k ns = (Members.find? k ms).map g := by
  rcases switchRequired_cases required ms with ⟨ps, -, -, heq⟩ | ⟨-, heq⟩ | heq
  · obtain ⟨g, hg, hfind⟩ := exists_find?_mapAt (fun _ => .fields) "properties" ms k
    exact ⟨_, g, heq, hg, by rw [find?_switchNames_of_not_same _ _ _ (Scalar.str_same_eq_false_of_ne hk), hfind]⟩
  · obtain ⟨g, hg, hfind⟩ := exists_find?_mapAt (fun _ => .node) "items" ms k
    exact ⟨_, g, heq, hg, hfind⟩
  · exact ⟨_, id, heq, fun _ => .same, by rw [Option.map_id, id]⟩

theorem exists_child_same (required : Bool) (v s : Value) :
    ∃ g : Value → Value, (∀ c, SwitchedPart required c (g c)) ∧
      v.child s = (v.child s).map (Option.map g) := by
  refine ⟨id, fun _ => .same, ?_⟩
  cases v.child s <;> simp [Except.map]

/-- Along a segment other than that of the required names, what is found on the one side is the image of what is found
on the other, or nothing is found on either. -/
theorem SwitchedPart.exists_child (h : SwitchedPart required v w) {s : Value} (hs : s ≠ .str "required") :
    ∃ g : Value → Value, (∀ c, SwitchedPart required c (g c)) ∧
      w.child s = (v.child s).map (Option.map g) := by
  cases h with
  | same => exact exists_child_same required v s
  | node =>
      cases v with
      | object ms =>
          cases s with
          | scalar k =>
              obtain ⟨ns, g, heq, hg, hfind⟩ := exists_find?_switchRequired required ms fun h => hs (congrArg _ h)
              rw [heq]
              exact ⟨g, hg, congrArg Except.ok hfind⟩
          | _ =>
              obtain ⟨ns, heq, -⟩ := rewrites_switchRequired required ms
              rw [heq]
              exact ⟨id, fun _ => .same, rfl⟩
      | _ =>
          rw [switchRequired_of_not_isObject required (by simp)]
          exact exists_child_same required _ s
  | fields =>
      cases v with
      | object ps =>
          rw [switchedProperties_eq_map]
          cases s with
          | scalar k => exact ⟨_, fun _ => .node, congrArg Except.ok (Members.find?_map_values k _ ps)⟩
          | _ => exact ⟨id, fun _ => .same, rfl⟩
      | _ => exact exists_child_same required _ s

/-- A part with the switch set, seen along a path beside the required names. -/
structure SwitchedAlong (required : Bool) (p : Path) (v w : Value) : Prop where
  beside : ∀ s ∈ p, s ≠ .str "required"
  switched : SwitchedPart required v w

theorem SwitchedAlong.forward {s c : Value} {p : Path} (h : SwitchedAlong required (s :: p) v w)
    (hc : v.child s = .ok (some c)) : ∃ d, w.child s = .ok (some d) ∧ SwitchedAlong required p c d := by
  obtain ⟨hs, hp⟩ := List.forall_mem_cons.mp h.beside
  obtain ⟨g, hg, hchild⟩ := h.switched.exists_child hs
  exact ⟨g c, by rw [hchild, hc]; rfl, hp, hg c⟩

theorem SwitchedAlong.backward {s d : Value} {p : Path} (h : SwitchedAlong required (s :: p) v w)
    (hd : w.child s = .ok (some d)) : ∃ c, v.child s = .ok (some c) ∧ SwitchedAlong required p c d := by
  obtain ⟨hs, hp⟩ := List.forall_mem_cons.mp h.beside
  obtain ⟨g, hg, hchild⟩ := h.switched.exists_child hs
  rw [hchild] at hd
  cases hc : v.child s with
  | error fault =>
      rw [hc] at hd
      cases hd
  | ok found =>
      rw [hc] at hd
      obtain ⟨c, rfl, rfl⟩ := Option.map_eq_some_iff.mp (Except.ok.inj hd)
      exact ⟨c, rfl, hp, hg c⟩

end Places

/-- Setting the switch for required fields forgets how it was set before, and beside the lists of required names it
changes nothing. Set twice it leaves what it leaves when it is set once, but for the place of these lists, and even
that is the same if it removes them or is set the same way. A path that goes through no such list leads somewhere
afterwards if and only if it did before, and then to the same scalar, a list of the same length or an object with the
same keys. -/
theorem applyRequired_applyRequired (ms : Members) (a b : Bool) :
    ∃ first second once, applyRequired (.object ms) a = .ok first ∧ applyRequired first b = .ok second ∧
      applyRequired (.object ms) b = .ok once ∧ MovedRequired second once ∧
      (b = false ∨ a = b → second = once) ∧
      ∀ q, (∀ s ∈ q, s ≠ .str "required") →
        (Value.Resolves (.object ms) q ↔ Value.Resolves once q) ∧
          ∀ v w, (Value.object ms).get q = .ok v → once.get q = .ok w → SameOutline v w := by
  obtain ⟨ns, hfirst, -⟩ := rewrites_switchRequired a ms
  refine ⟨_, _, _, rfl, by rw [hfirst]; rfl, rfl, ?_, fun h => ?_, fun q hq => ⟨?_, fun v w hv hw => ?_⟩⟩
  · rw [← hfirst]
    exact movedRequired_switchRequired a b (.object ms)
  · rw [← hfirst]
    exact switchRequired_switchRequired h (.object ms)
  · have along : SwitchedAlong b q (.object ms) (switchRequired b (.object ms)) := ⟨hq, .node⟩
    rw [Value.resolves_iff, Value.resolves_iff]
    constructor
    · rintro ⟨v, hv⟩
      obtain ⟨w, hw, -⟩ := Value.exists_get_of_step SwitchedAlong.forward along hv
      exact ⟨w, hw⟩
    · rintro ⟨w, hw⟩
      obtain ⟨v, hv, -⟩ := Value.exists_get_of_step (R := fun p w v => SwitchedAlong b p v w)
        SwitchedAlong.backward along hw
      exact ⟨v, hv⟩
  · obtain ⟨t, ht, hvt⟩ := Value.exists_get_of_step SwitchedAlong.forward ⟨hq, .node⟩ hv
    cases ht.symm.trans hw
    exact hvt.switched.sameOutline

def withTexts : Members :=
  [(.str "type", .str "object"), (.str "properties", .object
    [(.str "a", .object [(.str "type", .str "array"), (.str "items", stringNode)])])]

def textNames : Scalar × Value := (.str "required", .array [.str "a"])

/-- Once they are removed, required names that stood first come back at the end; if the switch is set the same way
twice, they stay first. The property lies beside them, and so do all keys but theirs. -/
theorem applyRequired_textNames :
    (∃ first, applyRequired (.object (textNames :: withTexts)) false = .ok first ∧
      applyRequired first true = .ok (.object (withTexts ++ [textNames])) ∧
      MovedRequired (.object (withTexts ++ [textNames])) (.object (textNames :: withTexts))) ∧
      (∃ first, applyRequired (.object (textNames :: withTexts)) true = .ok first ∧
        applyRequired first true = .ok (.object (textNames :: withTexts))) ∧
      Value.Resolves (.object (textNames :: withTexts)) [.str "properties", .str "a"] ∧
      SameOutline (.object (textNames :: withTexts)) (.object withTexts) := by
  refine ⟨?_, ?_, ?_⟩
  · obtain ⟨first, second, once, hfirst, hsecond, honce, hmoved, -⟩ :=
      applyRequired_applyRequired (textNames :: withTexts) false true
    cases hfirst
    cases hsecond
    cases honce
    exact ⟨_, rfl, rfl, hmoved⟩
  · obtain ⟨first, second, once, hfirst, hsecond, honce, -, hsame, -⟩ :=
      applyRequired_applyRequired (textNames :: withTexts) true true
    rw [hsame (.inr rfl), ← honce] at hsecond
    exact ⟨first, hfirst, hsecond⟩
  · obtain ⟨-, -, once, -, -, honce, -, -, hplaces⟩ :=
      applyRequired_applyRequired (textNames :: withTexts) true false
    cases honce
    refine ⟨(hplaces _ ?_).1.mpr ?_, (hplaces [] (by simp)).2 _ _ rfl rfl⟩
    · simp
    · exact Value.resolves_iff.mpr ⟨_, rfl⟩

end SchemaForge.Schema
