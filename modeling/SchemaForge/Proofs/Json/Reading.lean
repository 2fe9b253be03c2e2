import SchemaForge.Proofs.Json.RoundTrip

/-!
What reading gives. Keys are read as texts, and of a key that is repeated only one member is kept; an integer
is refused if it has too many digits. So the values that reading gives are those that can be read, and since
each of these is read from its own text, they are all of them.
-/

namespace SchemaForge.Json

open Numeric (digits)

/-! ### Integers -/

theorem digitValue_lt {c : Char} (h : c.isDigit = true) : c.toNat - '0'.toNat < 10 := by
  rw [Char.isDigit, Bool.and_eq_true, decide_eq_true_iff, decide_eq_true_iff] at h
  obtain ⟨-, hle⟩ := h
  have hle : c.toNat ≤ 57 := UInt32.le_iff_toNat_le.mp hle
  show c.toNat - 48 < 10
  omega

theorem ofDigitChars_lt {ds : List Char} (h : ∀ c ∈ ds, c.isDigit = true) (n : Nat) :
    Nat.ofDigitChars 10 ds n < (n + 1) * 10 ^ ds.length := by
  induction ds generalizing n with
  | nil => rw [Nat.ofDigitChars_nil, List.length_nil, Nat.pow_zero, Nat.mul_one]; exact Nat.lt_succ_self n
  | cons c ds ih =>
      have hc := digitValue_lt (h c List.mem_cons_self)
      have hrest := ih (fun d hd => h d (List.mem_cons_of_mem _ hd)) (10 * n + (c.toNat - '0'.toNat))
      rw [Nat.ofDigitChars_cons, List.length_cons]
      calc Nat.ofDigitChars 10 ds (10 * n + (c.toNat - '0'.toNat))
          < (10 * n + (c.toNat - '0'.toNat) + 1) * 10 ^ ds.length := hrest
        _ ≤ ((n + 1) * 10) * 10 ^ ds.length := Nat.mul_le_mul_right _ (by omega)
        _ = (n + 1) * 10 ^ (ds.length + 1) := by rw [Nat.pow_succ, Nat.mul_assoc, Nat.mul_comm 10]

/-- A number has no more digits than the row that it is read from. -/
theorem length_digits_ofDigitChars {ds : List Char} (hne : ds ≠ []) (h : ∀ c ∈ ds, c.isDigit = true) :
    (digits (Nat.ofDigitChars 10 ds 0)).length ≤ ds.length := by
  have hlt := ofDigitChars_lt h 0
  rw [Nat.zero_add, Nat.one_mul] at hlt
  exact (Nat.length_toDigits_le_iff (by omega) (List.length_pos_iff.mpr hne)).mpr hlt

theorem isDigit_of_readWhole {cs whole rest : List Char} (h : readWhole cs = some (whole, rest)) :
    whole ≠ [] ∧ ∀ c ∈ whole, c.isDigit = true := by
  unfold readWhole at h
  split at h
  · cases h
    exact ⟨by simp, List.forall_mem_singleton.mpr rfl⟩
  · have hdigits : ∀ c ∈ (spanDigits cs).1, c.isDigit = true := List.all_eq_true.mp List.all_takeWhile
    rcases hspan : spanDigits cs with ⟨_ | ⟨d, ds⟩, tail⟩
    · rw [hspan] at h
      cases h
    · rw [hspan] at h hdigits
      cases h
      exact ⟨by simp, hdigits⟩

theorem isReadable_of_readMagnitude {start cs rest : List Char} {negative : Bool} {v : Value}
    (h : readMagnitude start negative cs = .ok (v, rest)) : v.IsReadable := by
  unfold readMagnitude at h
  split at h
  · cases h
  · next whole tail hwhole =>
      split at h
      · split at h
        · cases h
        · next hshort =>
            cases h
            obtain ⟨hne, hdigits⟩ := isDigit_of_readWhole hwhole
            have hlength := length_digits_ofDigitChars hne hdigits
            have habs : (if negative then -(Nat.ofDigitChars 10 whole 0 : Int)
                else Nat.ofDigitChars 10 whole 0).natAbs = Nat.ofDigitChars 10 whole 0 := by
              split <;> omega
            refine .scalar (Scalar.isReadable_int_iff.mpr ?_)
            rw [habs]
            omega
      · cases h
        exact .scalar trivial
      · cases h
        exact .scalar trivial

theorem isReadable_of_readAtom {cs rest : List Char} {v : Value} (h : readAtom cs = .ok (v, rest)) :
    v.IsReadable := by
  unfold readAtom at h
  split at h
  · next word w hfind =>
      cases h
      have hmem := List.mem_of_find?_eq_some hfind
      simp only [words, List.mem_cons, List.not_mem_nil, or_false] at hmem
      rcases hmem with hw | hw | hw | hw | hw | hw <;> cases hw <;> exact .scalar trivial
  · unfold readNumber at h
    split at h
    · exact isReadable_of_readMagnitude h
    · exact isReadable_of_readMagnitude h

/-! ### Values -/

theorem isText_of_readKey {cs rest : List Char} {k : Scalar} (h : readKey cs = .ok (k, rest)) :
    k.IsText := by
  unfold readKey at h
  split at h
  · obtain ⟨⟨text, tail⟩, -, h⟩ := bind_eq_ok_iff.mp h
    dsimp only at h
    split at h
    · cases h
      exact ⟨_, rfl⟩
    · cases h
  · cases h

/-- Whether what is read with some fuel can be read. -/
structure ReadsReadable (fuel : Nat) : Prop where
  value {cs v rest} (h : readValue fuel cs = .ok (v, rest)) : v.IsReadable
  elements {cs xs rest} (h : readElements fuel cs = .ok (xs, rest)) : ∀ x ∈ xs, x.IsReadable
  members {cs ps rest} (h : readMembers fuel cs = .ok (ps, rest)) :
    ∀ p ∈ ps, p.1.IsText ∧ p.2.IsReadable

namespace ReadsReadable

variable {fuel : Nat} (reads : ReadsReadable fuel) {cs rest : List Char}

include reads

theorem readValue_succ {v : Value} (h : readValue (fuel + 1) cs = .ok (v, rest)) : v.IsReadable := by
  unfold readValue at h
  split at h
  · obtain ⟨⟨text, tail⟩, -, h⟩ := bind_eq_ok_iff.mp h
    cases h
    exact .scalar trivial
  · split at h
    · cases h
      exact .array (by simp)
    · obtain ⟨⟨xs, tail⟩, hxs, h⟩ := bind_eq_ok_iff.mp h
      cases h
      exact .array (reads.elements hxs)
  · split at h
    · cases h
      exact Value.hereditary_isReadable.empty
    · obtain ⟨⟨ps, tail⟩, hps, h⟩ := bind_eq_ok_iff.mp h
      cases h
      have hmembers := reads.members hps
      refine Value.hereditary_isReadable.ofPairs (fun m hm => ?_) fun p hp => (hmembers p hp).2
      obtain ⟨p, hp, hkey⟩ := List.mem_map.mp (Members.mem_ofPairs hm).1
      exact hkey ▸ (hmembers p hp).1
  · exact isReadable_of_readAtom h

theorem readElements_succ {xs : List Value} (h : readElements (fuel + 1) cs = .ok (xs, rest)) :
    ∀ x ∈ xs, x.IsReadable := by
  unfold readElements at h
  obtain ⟨⟨x, tail⟩, hx, h⟩ := bind_eq_ok_iff.mp h
  dsimp only at h
  split at h
  · cases h
    exact List.forall_mem_singleton.mpr (reads.value hx)
  · obtain ⟨⟨ys, tail'⟩, hys, h⟩ := bind_eq_ok_iff.mp h
    cases h
    exact List.forall_mem_cons.mpr ⟨reads.value hx, reads.elements hys⟩
  · cases h

theorem readMembers_succ {ps : List (Scalar × Value)}
    (h : readMembers (fuel + 1) cs = .ok (ps, rest)) : ∀ p ∈ ps, p.1.IsText ∧ p.2.IsReadable := by
  unfold readMembers at h
  obtain ⟨⟨k, tail⟩, hk, h⟩ := bind_eq_ok_iff.mp h
  obtain ⟨⟨v, tail'⟩, hv, h⟩ := bind_eq_ok_iff.mp h
  have hfirst : k.IsText ∧ v.IsReadable := ⟨isText_of_readKey hk, reads.value hv⟩
  dsimp only at h
  split at h
  · cases h
    exact List.forall_mem_singleton.mpr hfirst
  · obtain ⟨⟨qs, tail''⟩, hqs, h⟩ := bind_eq_ok_iff.mp h
    cases h
    exact List.forall_mem_cons.mpr ⟨hfirst, reads.members hqs⟩
  · cases h

end ReadsReadable

/-- The fuel goes down from a value to its parts and from a part to the next. -/
theorem readsReadable (fuel : Nat) : ReadsReadable fuel := by
  induction fuel with
  | zero =>
      refine ⟨fun h => ?_, fun h => ?_, fun h => ?_⟩
      · rw [readValue] at h
        cases h
      · rw [readElements] at h
        cases h
      · rw [readMembers] at h
        cases h
  | succ fuel ih => exact ⟨ih.readValue_succ, ih.readElements_succ, ih.readMembers_succ⟩

theorem isReadable_of_read {text : String} {v : Value} (h : read text = .ok v) : v.IsReadable := by
  unfold read at h
  cases hall : readAll text.toList with
  | error stop =>
      rw [hall] at h
      cases h
  | ok w =>
      rw [hall] at h
      cases h
      unfold readAll at hall
      split at hall
      · cases hall
      · obtain ⟨⟨u, rest⟩, hu, hall⟩ := bind_eq_ok_iff.mp hall
        dsimp only at hall
        split at hall
        · cases hall
          exact (readsReadable _).value hu
        · cases hall

def Denoted (v : Value) : Prop := ∃ text, read text = .ok v

theorem denoted_iff {v : Value} : Denoted v ↔ v.IsReadable :=
  ⟨fun ⟨_, h⟩ => isReadable_of_read h, fun h => ⟨_, read_write isPlain_compact h⟩⟩

end SchemaForge.Json
