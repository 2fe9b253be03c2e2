import Mathlib.Order.Monotone.Basic
import SchemaForge.Proofs.Editor.RequiredNames

/-!
What the operations on required names make of the node that owns some fields, whatever that node lists and
whatever a name is. The owner keeps its list, loses it or gets another one, and the document gets the owner
back; nothing comes into the list but the one name that an operation is about. The fields stay as they are,
unless the list is one of them or they stand in its place.
-/

namespace SchemaForge

theorem Value.truthy_of_elements {v : Value} {xs : List Value} (h : v.elements = .ok xs)
    (hne : xs ≠ []) : v.truthy = true := by
  cases v with
  | scalar k =>
      cases k with
      | str text =>
          cases h
          have htext : text ≠ "" := by
            rintro rfl
            exact hne rfl
          simpa [truthy] using htext
      | _ => cases h
  | array ys =>
      cases h
      simpa [truthy] using hne
  | object ms =>
      cases h
      simpa [truthy] using hne

namespace Fields

/-- What a node lists as its required names, if that can be taken for a list. -/
def listedNames (ms : Members) : List Value :=
  match (Members.find? (.str "required") ms).map Value.elements with
  | some (.ok names) => names
  | _ => []

/-- The elements of `others` that are none of `fresh` come from `names`, in the same order; unless `others` is
shorter, each of them has kept its place. -/
def KeepsPlaces (names fresh others : List Value) : Prop :=
  ∃ place : Nat → Nat, StrictMono place ∧ (names.length ≤ others.length → place = id) ∧
    ∀ i v, others[i]? = some v → v ∈ fresh ∨ names[place i]? = some v

section KeepsPlaces

variable {names fresh others : List Value}

theorem KeepsPlaces.mem (h : KeepsPlaces names fresh others) {v : Value} (hv : v ∈ others) :
    v ∈ fresh ∨ v ∈ names := by
  obtain ⟨place, -, -, hplace⟩ := h
  obtain ⟨i, hi⟩ := List.getElem?_of_mem hv
  exact (hplace i v hi).imp_right List.mem_of_getElem?

theorem KeepsPlaces.mono {fresh' : List Value} (h : KeepsPlaces names fresh others)
    (hfresh : ∀ n ∈ fresh, n ∈ fresh') : KeepsPlaces names fresh' others := by
  obtain ⟨place, increasing, stays, hplace⟩ := h
  exact ⟨place, increasing, stays, fun i v hv => (hplace i v hv).imp_left (hfresh v)⟩

theorem keepsPlaces_self (names fresh : List Value) : KeepsPlaces names fresh names :=
  ⟨id, strictMono_id, fun _ => rfl, fun _ _ => .inr⟩

theorem keepsPlaces_append (names fresh : List Value) : KeepsPlaces names fresh (names ++ fresh) := by
  refine ⟨id, strictMono_id, fun _ => rfl, fun i v hv => ?_⟩
  rw [List.getElem?_append] at hv
  split at hv
  · exact .inr hv
  · exact .inl (List.mem_of_getElem? hv)

/-- The elements after one that is removed move up. -/
theorem keepsPlaces_eraseIdx {names : List Value} (fresh : List Value) {k : Nat} (hk : k < names.length) :
    KeepsPlaces names fresh (names.eraseIdx k) := by
  have hlength := List.length_eraseIdx_add_one hk
  refine ⟨fun i => if i < k then i else i + 1, fun i j hij => ?_, fun hle => ?_, fun i v hv => .inr ?_⟩
  · dsimp only
    split <;> split <;> omega
  · omega
  · rw [List.getElem?_eraseIdx] at hv
    dsimp only
    split at hv
    · next hi => rwa [if_pos hi]
    · next hi => rwa [if_neg hi]

theorem keepsPlaces_eraseP (names fresh : List Value) (p : Value → Bool) :
    KeepsPlaces names fresh (names.eraseP p) := by
  rw [List.eraseP_eq_eraseIdx]
  split
  · exact keepsPlaces_self names fresh
  · next k hk => exact keepsPlaces_eraseIdx fresh (List.findIdx?_eq_some_iff_getElem.mp hk).1

theorem keepsPlaces_map {f : Value → Value} (hf : ∀ v, f v ∈ fresh ∨ f v = v) (names : List Value) :
    KeepsPlaces names fresh (names.map f) := by
  refine ⟨id, strictMono_id, fun _ => rfl, fun i v hv => ?_⟩
  rw [List.getElem?_map, Option.map_eq_some_iff] at hv
  obtain ⟨w, hw, rfl⟩ := hv
  rcases hf w with hfresh | hsame
  · exact .inl hfresh
  · exact .inr (by rwa [hsame])

end KeepsPlaces

/-- A node that has the members of another one but for its list of required names. Those that stay keep their
order, and only the names in `fresh` may be new. -/
inductive Relists (ms : Members) (fresh : List Value) : Members → Prop where
  | same : Relists ms fresh ms
  | dropped : Relists ms fresh (Members.erase (.str "required") ms)
  | given {names : List Value} (places : KeepsPlaces (listedNames ms) fresh names) :
      Relists ms fresh (Members.insert (.str "required") (.array names) ms)

theorem listedNames_eq {ms : Members} {listed : Value} {names : List Value}
    (hlisted : Members.find? (.str "required") ms = some listed) (hnames : listed.elements = .ok names) :
    listedNames ms = names := by
  rw [listedNames, hlisted, Option.map_some, hnames]

/-- A value that counts as false lists no names. -/
theorem listedNames_of_not_truthy {ms : Members}
    (h : ((Members.find? (.str "required") ms).getD .null).truthy = false) : listedNames ms = [] := by
  unfold listedNames
  split
  · next names hnames =>
      obtain ⟨listed, hfind, hlisted⟩ := Option.map_eq_some_iff.mp hnames
      rw [hfind, Option.getD_some] at h
      by_contra hne
      rw [Value.truthy_of_elements hlisted hne] at h
      cases h
  · rfl

theorem exists_of_requiredNames {owner : Value} {names : List Value}
    (h : requiredNames owner = .ok names) :
    ∃ ms, owner = .object ms ∧ names = listedNames ms := by
  obtain ⟨listed, hlisted, h⟩ := bind_eq_ok_iff.mp h
  obtain ⟨found, hfound, heq⟩ := bind_eq_ok_iff.mp hlisted
  cases heq
  cases owner with
  | object ms =>
      cases hfound
      refine ⟨ms, rfl, ?_⟩
      split at h
      · cases hfind : Members.find? (.str "required") ms with
        | none => simp_all [Value.truthy]
        | some v =>
            rw [hfind, Option.getD_some] at h
            exact (listedNames_eq hfind h).symm
      · next hfalsy =>
          cases h
          exact (listedNames_of_not_truthy (Bool.eq_false_iff.mpr hfalsy)).symm
  | _ => simp [Value.lookup, Value.members] at hfound

section Owner

variable {doc : Value} {path : Path} {name : Value}

/-- A document is left as it is or gets its owner back with other names, one of which may be new. -/
theorem exists_of_setRequired {required : Bool} {o : Option Value}
    (h : setRequired doc path name required = .ok o) :
    ∃ ms, doc.get path.dropLast = .ok (.object ms) ∧
      (o = none ∨ ∃ ns, o = some (doc.put path.dropLast (.object ns)) ∧
        Relists ms (if required then [name] else []) ns) := by
  obtain ⟨owner, howner, h'⟩ := bind_eq_ok_iff.mp h
  obtain ⟨names, hnames, hchange⟩ := bind_eq_ok_iff.mp h'
  obtain ⟨ms, rfl, rfl⟩ := exists_of_requiredNames hnames
  clear h h'
  have hset : ∀ xs, doc.set (requiredPath path) (.array xs) =
      .ok (doc.put path.dropLast (.object (Members.insert (.str "required") (.array xs) ms))) :=
    fun xs => Value.set_snoc_object howner (.str "required") (.array xs)
  refine ⟨ms, howner, ?_⟩
  dsimp only at hchange
  split at hchange
  · split at hchange
    · have hremove := Value.remove_snoc_object howner (.str "required")
      rw [filter_equals_eq_erase, ← requiredPath] at hremove
      rw [hremove] at hchange
      cases hchange
      exact .inr ⟨_, rfl, .dropped⟩
    · rw [hset] at hchange
      cases hchange
      exact .inr ⟨_, rfl, .given (keepsPlaces_eraseP _ _ _)⟩
  · split at hchange
    · next hrequired =>
        rw [hset] at hchange
        cases hchange
        have hfresh : required = true := (Bool.and_eq_true_iff.mp hrequired).1
        rw [if_pos hfresh]
        exact .inr ⟨_, rfl, .given (keepsPlaces_append _ _)⟩
    · cases hchange
      exact .inl rfl

theorem exists_of_withRequired {required : Bool} {d : Value}
    (h : withRequired doc path name required = .ok d) :
    ∃ ms ns, doc.get path.dropLast = .ok (.object ms) ∧
      d = doc.put path.dropLast (.object ns) ∧ Relists ms (if required then [name] else []) ns := by
  obtain ⟨o, ho, h⟩ := bind_eq_ok_iff.mp h
  cases h
  obtain ⟨ms, hget, rfl | ⟨ns, rfl, hns⟩⟩ := exists_of_setRequired ho
  · exact ⟨ms, ms, hget, (Value.put_self hget).symm, .same⟩
  · exact ⟨ms, ns, hget, rfl, hns⟩

/-- An owner that cannot list any names is left alone. -/
theorem exists_of_renameRequired {old d : Value} (h : renameRequired doc path old name = .ok d) :
    d = doc ∨ ∃ ms ns, doc.get path.dropLast = .ok (.object ms) ∧
      d = doc.put path.dropLast (.object ns) ∧ Relists ms [name] ns := by
  obtain ⟨owner, howner, hchange⟩ := bind_eq_ok_iff.mp h
  obtain ⟨held, -, hchange⟩ := bind_eq_ok_iff.mp hchange
  cases held with
  | false =>
      cases hchange
      exact .inl rfl
  | true =>
      cases owner with
      | object ms =>
          obtain ⟨names, hnames, hset⟩ := bind_eq_ok_iff.mp hchange
          rw [requiredPath, Value.set_snoc_object howner] at hset
          cases hset
          have hrenamed : ∀ v, renamedTo old name v ∈ [name] ∨ renamedTo old name v = v := by
            intro v
            unfold renamedTo
            split
            · exact .inl (List.mem_singleton_self _)
            · exact .inr rfl
          cases hfind : Members.find? (.str "required") ms with
          | none => simp [hfind, Value.elements] at hnames
          | some v =>
              rw [hfind, Option.getD_some] at hnames
              refine .inr ⟨ms, _, howner, rfl, .given ?_⟩
              rw [listedNames_eq hfind hnames]
              exact keepsPlaces_map hrenamed names
      | _ => cases hchange

/-! ### What the owner of a new field keeps -/

theorem Relists.find? {ms ns : Members} {fresh : List Value} (h : Relists ms fresh ns) {k : Scalar}
    (hk : k ≠ .str "required") : Members.find? k ns = Members.find? k ms := by
  have hsame : (Scalar.str "required").same k = false := by
    rw [Scalar.same_comm, ← Bool.not_eq_true, Scalar.same_str_iff]
    exact hk
  cases h with
  | same => rfl
  | dropped => exact Members.find?_erase_of_not_same hsame ms
  | given _ => exact Members.find?_insert_of_not_same hsame _ ms

/-- A name that is listed already is not listed again. -/
theorem withRequired_of_listed {ms : Members} {listed : Value} {names : List Value}
    (howner : doc.get path.dropLast = .ok (.object ms))
    (hlisted : Members.find? (.str "required") ms = some listed)
    (hnames : listed.elements = .ok names) (hname : name.occurs names = true) :
    withRequired doc path name true = .ok doc := by
  have hrequired : requiredNames (.object ms) = .ok names := by
    have hget : (Value.object ms).getOrNull "required" = .ok listed := by
      simp [Value.getOrNull, Value.lookup, hlisted]
    rw [requiredNames, hget, ok_bind]
    have hne : names ≠ [] := by
      rintro rfl
      simp [Value.occurs] at hname
    rw [if_pos (Value.truthy_of_elements hnames hne), hnames]
  rw [withRequired, setRequired, howner, ok_bind, hrequired, ok_bind]
  simp [hname]

/-- The fields of a node are kept when one of them is made required. Where the fields are the members of the
document itself, the list of required names is one of them; and where they stand in the place of such a list,
the name has to be one of theirs. -/
theorem get_of_withRequired {d v : Value} {ms : Members} {text : String} {k : Scalar}
    (hget : doc.get path = .ok (.object ms)) (h : withRequired doc path (.str text) true = .ok d)
    (hv : Members.find? k ms = some v) (hroot : path = [] → k ≠ .str "required")
    (hlist : path.getLast? = some (.str "required") → Members.has (.str text) ms = true) :
    d.get (path ++ [.scalar k]) = .ok v := by
  induction path using List.reverseRecOn with
  | nil =>
      obtain ⟨ms', ns, hget', rfl, hns⟩ := exists_of_withRequired h
      cases hget.symm.trans hget'
      refine (Value.get_snoc_object (Value.get_put hget' _) k).mpr ?_
      rw [hns.find? (hroot rfl), hv]
  | append_singleton q s _ =>
      obtain ⟨c, hc, hchild⟩ := Value.get_snoc_eq_ok_iff.mp hget
      obtain ⟨os, l, rfl, rfl, hl⟩ | ⟨xs, i, n, rfl, rfl, hi, hn⟩ := Value.exists_of_child hchild
      · by_cases hrequired : l = .str "required"
        · subst hrequired
          have hmem := (Members.has_iff ⟨_, rfl⟩).mp (hlist List.getLast?_concat)
          have hsame : withRequired doc (q ++ [.scalar (.str "required")]) (.str text) true = .ok doc := by
            refine withRequired_of_listed (by rwa [List.dropLast_concat]) hl rfl ?_
            obtain ⟨m, hm, hkey⟩ := List.mem_map.mp hmem
            exact (Value.occurs_str_iff _ _).mpr (List.mem_map.mpr ⟨m, hm, by rw [hkey]⟩)
          rw [hsame] at h
          cases h
          exact (Value.get_snoc_object hget k).mpr hv
        · obtain ⟨os', ns, hc', rfl, hns⟩ := exists_of_withRequired h
          rw [List.dropLast_concat] at hc' ⊢
          cases hc.symm.trans hc'
          have hfields := (Value.get_snoc_object (Value.get_put hc (.object ns)) l).mpr
            ((hns.find? hrequired).trans hl)
          exact (Value.get_snoc_object hfields k).mpr hv
      · -- A list does not own any fields.
        obtain ⟨os, ns, hc', -, -⟩ := exists_of_withRequired h
        rw [List.dropLast_concat, hc] at hc'
        cases hc'

end Owner

end Fields

end SchemaForge
