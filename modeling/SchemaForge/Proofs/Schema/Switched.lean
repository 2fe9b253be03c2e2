import SchemaForge.Proofs.Schema.NormalForm

/-!
Setting the switch for required fields a second time. The switch keeps the names of all properties, in their
order, so the second time it comes to the same nodes and has the same names to write or to remove there. What it
removes, it removes from wherever the first time has put it; and a list that was written is written again in the
same place. A document that was brought into normal form and then switched therefore comes through both unchanged.
-/

namespace SchemaForge

namespace Members

theorem mapAt_mapAt (word : String) (f g : Value → Value) (ms : Members) :
    mapAt word f (mapAt word g ms) = mapAt word (fun v => f (g v)) ms := by
  rw [mapAt, mapAt, List.map_map]
  refine List.map_congr_left fun m _ => ?_
  by_cases h : m.1 = .str word <;> simp [h]

theorem mapAt_congr {word : String} {f g : Value → Value} {ms : Members}
    (h : ∀ v, (.str word, v) ∈ ms → f v = g v) : mapAt word f ms = mapAt word g ms := by
  refine List.map_congr_left fun m hm => ?_
  split
  · next hk => rw [h m.2 (hk ▸ hm)]
  · rfl

theorem mapAt_insert {word : String} {k : Scalar} (hk : k ≠ .str word) (f : Value → Value) (v : Value)
    (ms : Members) : mapAt word f (insert k v ms) = insert k v (mapAt word f ms) := by
  induction ms with
  | nil => simp [mapAt, insert, hk]
  | cons m ms ih =>
      obtain ⟨l, w⟩ := m
      rw [mapAt] at ih
      by_cases hl : l = .str word
      · subst hl
        simp [mapAt, insert, Scalar.str_same_eq_false_of_ne hk, ih]
      · by_cases hsame : l.same k = true
        · simp [mapAt, insert, hl, hsame]
        · simp [mapAt, insert, hl, hsame, ih]

theorem mapAt_erase (word : String) (f : Value → Value) (k : Scalar) (ms : Members) :
    mapAt word f (erase k ms) = erase k (mapAt word f ms) := by
  rw [mapAt, mapAt, erase, erase, List.filter_map]
  refine congrArg _ (List.filter_congr fun m _ => ?_)
  by_cases h : m.1 = .str word <;> simp [h]

theorem erase_insert (k : Scalar) (v : Value) (ms : Members) : erase k (insert k v ms) = erase k ms := by
  induction ms with
  | nil => simp [erase, insert]
  | cons m ms ih =>
      obtain ⟨l, w⟩ := m
      rw [erase, erase] at ih
      by_cases hl : l.same k = true <;> simp [erase, insert, hl, ih]

theorem erase_erase (k : Scalar) (ms : Members) : erase k (erase k ms) = erase k ms :=
  erase_of_not_has (by rw [has, find?_erase_self, Option.isSome_none])

end Members

namespace Schema

open Members (mapAt mapPicked)

variable {a b : Bool}

/-- Where the names go or stay does not matter to what is removed afterwards, nor to what is written a second
time. -/
theorem switchNames_switchNames (h : b = false ∨ a = b) (ps ms : Members) :
    switchNames b ps (switchNames a ps ms) = switchNames b ps ms := by
  rcases h with rfl | rfl
  · cases a with
    | true => exact Members.erase_insert _ _ _
    | false => exact Members.erase_erase _ _
  · cases a with
    | true => exact Members.insert_insert _ _ _ _
    | false => exact Members.erase_erase _ _

theorem switchNames_of_keys_eq {ps qs : Members} (h : Members.keys ps = Members.keys qs) (required : Bool)
    (ms : Members) : switchNames required ps ms = switchNames required qs ms := by
  rw [switchNames, switchNames, allNames_eq, allNames_eq, h]

theorem mapAt_switchNames (f : Value → Value) (required : Bool) (ps ms : Members) :
    mapAt "properties" f (switchNames required ps ms) = switchNames required ps (mapAt "properties" f ms) := by
  cases required with
  | true => exact Members.mapAt_insert (by simp) _ _ _
  | false => exact Members.mapAt_erase _ _ _ _

/-- Properties that are no containers have nothing to switch, so that there is no need to tell them apart. -/
theorem switchedProperties_eq_map (required : Bool) (ps : Members) :
    switchedProperties required (.object ps) =
      .object (ps.map fun m => (m.1, switchRequired required m.2)) := by
  rw [switchedProperties_object]
  refine congrArg Value.object (List.map_congr_left fun m _ => ?_)
  split
  · rfl
  · next h => rw [switchRequired_of_not_declaresContainer required (Bool.eq_false_iff.mpr h)]

/-- The switch set twice, at one node: the second time goes by the same type and the same names as the first. -/
theorem switchRequired_twice (a b : Bool) (ms : Members) :
    (∃ ps, Members.find? (.str "type") ms = some (.str "object") ∧
        Members.find? (.str "properties") ms = some (.object ps) ∧
        switchRequired b (switchRequired a (.object ms)) =
          .object (switchNames b ps (switchNames a ps
            (mapAt "properties" (fun v => switchedProperties b (switchedProperties a v)) ms)))) ∨
      (Members.find? (.str "type") ms = some (.str "array") ∧
        switchRequired b (switchRequired a (.object ms)) =
          .object (mapAt "items" (fun v => switchRequired b (switchRequired a v)) ms)) ∨
      switchRequired b (switchRequired a (.object ms)) = switchRequired b (.object ms) := by
  rcases switchRequired_cases a ms with ⟨ps, htype, hps, heq⟩ | ⟨htype, heq⟩ | heq
  · have htype' : Members.find? (.str "type")
        (switchNames a ps (mapAt "properties" (switchedProperties a) ms)) = some (.str "object") := by
      rw [find?_switchNames_of_ne _ _ _ (by simp), Members.find?_mapAt, if_neg (by simp), htype]
    refine .inl ⟨ps, htype, hps, ?_⟩
    rw [heq, switchRequired_of_object b htype' (find?_properties_switched a hps),
      switchNames_of_keys_eq (Members.keys_mapPicked _ _ ps), mapAt_switchNames, Members.mapAt_mapAt]
  · have htype' : Members.find? (.str "type") (mapAt "items" (switchRequired a) ms) = some (.str "array") := by
      rw [Members.find?_mapAt, if_neg (by simp), htype]
    exact .inr (.inl ⟨htype, by rw [heq, switchRequired_of_array b htype', Members.mapAt_mapAt]⟩)
  · exact .inr (.inr (by rw [heq]))

/-- Setting the switch a second time makes the first time as if it had not been, if it removes the names or is set
the same way. What is below a node is settled by induction. -/
theorem switchRequired_switchRequired (h : b = false ∨ a = b) (v : Value) :
    switchRequired b (switchRequired a v) = switchRequired b v := by
  refine v.part_induction (P := fun v => switchRequired b (switchRequired a v) = switchRequired b v) ?_ ?_
  · intro v hv
    rw [switchRequired_of_not_isObject a hv]
  · intro ms ih
    rcases switchRequired_twice a b ms with ⟨ps, htype, hps, heq⟩ | ⟨htype, heq⟩ | heq
    · rw [heq, switchRequired_of_object b htype hps, switchNames_switchNames h]
      refine congrArg (fun ns => Value.object (switchNames b ps ns)) (Members.mapAt_congr fun v hv => ?_)
      cases v with
      | object qs =>
          simp only [switchedProperties_eq_map, List.map_map]
          refine congrArg Value.object (List.map_congr_left fun m hm => Prod.ext rfl ?_)
          exact (ih _ hv).members qs rfl m hm
      | _ => rfl
    · rw [heq, switchRequired_of_array b htype]
      exact congrArg Value.object (Members.mapAt_congr fun v hv => (ih _ hv).self)
    · exact heq

/-- The switch keeps a document in normal form, so that there is nothing to normalize after it. -/
theorem normalize_switchRequired_normalize (required : Bool) (v : Value) :
    normalize (switchRequired required (normalize v)) = switchRequired required (normalize v) :=
  (isNormal_normalize v).switchRequired required

end Schema

end SchemaForge
