import JusticeViolation.Json.Decode
import JusticeViolation.Proofs.Json.Reading

/-!
# Decoding what has been encoded

There is often more than one way to write the same thing: a structure as a record or as a list, with
fields left out or not, a name as a string or as a record. Encoding chooses one of them. `RoundTrip`
says that nothing is lost by the choice: whatever a decoder has accepted, it accepts again from the
encoding, within the same room, and with the same result. A decoder of a compound inherits this from
those of its parts.
-/

namespace JusticeViolation.Json

variable {α : Type}

/-- Whatever has been decoded is decoded again from its encoding. -/
def RoundTrip (encode : α → Json) (decode : Json → Option α) : Prop :=
  ∀ ⦃v a⦄, decode v = some a → decode (encode a) = some a

/-! ## Texts and numbers -/

theorem roundTrip_text : RoundTrip text text? := fun _ _ _ ↦ rfl

/-- **A natural number is read as it is written.** -/
theorem nat?_nat (n : Nat) : (nat n).nat? = some n := by
  have hdigits : (Nat.toDigits 10 n).all Char.isDigit = true :=
    List.all_eq_true.mpr fun _ hc ↦ Nat.isDigit_of_mem_toDigits (by omega) (by omega) hc
  have hvalue := Nat.ofDigitChars_ten_toDigits (n := n)
  rw [Nat.ofDigitChars_eq_foldl] at hvalue
  rw [nat, nat?, Nat.toString_eq_repr, Nat.toList_repr, if_pos hdigits]
  exact congrArg some hvalue

/-! ## Lists -/

theorem RoundTrip.mapM {encode : α → Json} {decode : Json → Option α}
    (h : RoundTrip encode decode) {vs : List Json} {as : List α} (has : vs.mapM decode = some as) :
    (as.map encode).mapM decode = some as := by
  induction vs generalizing as with
  | nil =>
    cases has
    rfl
  | cons v vs ih =>
    rw [List.mapM_cons] at has
    obtain ⟨a, ha, hrest⟩ := Option.bind_eq_some_iff.mp has
    obtain ⟨rest, hvs, hcons⟩ := Option.bind_eq_some_iff.mp hrest
    cases hcons
    simp [List.mapM_cons, h ha, ih hvs]

theorem RoundTrip.listOf {encode : α → Json} {decode : Nat → Json → Option α}
    (h : ∀ room, RoundTrip encode (decode room)) (room : Nat) :
    RoundTrip (fun as ↦ .list (as.map encode)) (listOf room decode) := fun v as has ↦ by
  obtain ⟨inner, hroom, hitems⟩ := Option.bind_eq_some_iff.mp has
  obtain ⟨vs, -, hvs⟩ := Option.bind_eq_some_iff.mp hitems
  rw [Json.listOf, hroom]
  exact (h inner).mapM hvs

/-! ## Fields -/

/-- The value of a field is looked up by its name. -/
theorem fieldOf?_eq_lookup {ms : List (String × Json)} (hkeys : (ms.map (·.1)).Nodup)
    (name : String) :
    fieldOf? (ms.map fun m ↦ (some m.1, m.2)) name = some (ms.lookup name) := by
  induction ms with
  | nil => rfl
  | cons m ms ih =>
    obtain ⟨key, v⟩ := m
    obtain ⟨hkey, hrest⟩ := List.nodup_cons.mp hkeys
    have ih := ih hrest
    rw [fieldOf?] at ih ⊢
    by_cases hname : key = name
    · subst hname
      have hnone : (ms.map fun m ↦ (some m.1, m.2)).filter (fun m ↦ m.1 == some key) = [] := by
        rw [List.filter_eq_nil_iff, List.forall_mem_map]
        intro m hm heq
        exact hkey (List.mem_map.mpr ⟨m, hm, Option.some_inj.mp (beq_iff_eq.mp heq)⟩)
      simp [hnone]
    · rw [List.map_cons, List.filter_cons_of_neg (by simpa using hname), ih,
        List.lookup_cons, beq_false_of_ne (Ne.symm hname)]

/-- **The fields of an object**, whose keys are different. -/
theorem fields?_object {ms : List (String × Json)} (hkeys : (ms.map (·.1)).Nodup)
    (names : List String) : fields? names (object ms) = some (names.map fun n ↦ ms.lookup n) := by
  have hfields : fieldOf? (ms.map fun m ↦ (some m.1, m.2)) = fun name ↦ some (ms.lookup name) :=
    funext (fieldOf?_eq_lookup hkeys)
  have hnamed : ((ms.map fun m ↦ (some m.1, m.2)).any fun m ↦ m.1.isNone) = false := by simp
  rw [object, fields?, hnamed, hfields]
  exact List.mapM_pure

theorem fields?_pair {first second : String} (h : first ≠ second) (v w : Json) :
    fields? [first, second] (object [(first, v), (second, w)]) = some [some v, some w] := by
  rw [fields?_object (by simpa using h)]
  simp [List.lookup_cons, beq_false_of_ne (Ne.symm h)]

/-- Any value but null is decoded as it would be without leave to be null. -/
theorem nullable_of_ne_null {decode : Json → Option α} {v : Json} (h : v ≠ null) :
    nullable decode v = (decode v).map some := by
  unfold nullable
  split
  · exact absurd rfl h
  · rfl

theorem decode_of_nullable {decode : Json → Option α} {v : Json} {a : α}
    (h : nullable decode v = some (some a)) : decode v = some a := by
  unfold nullable at h
  split at h
  · cases h
  · simpa using h

/-- A field that is left out if there is nothing to write. -/
theorem RoundTrip.optional_nullable {encode : α → Json} {decode : Json → Option α}
    (h : RoundTrip encode decode) (hencode : ∀ a, encode a ≠ null) {field : Option Json}
    {a : Option α} (ha : Json.optional none (nullable decode) field = some a) :
    Json.optional none (nullable decode) (a.map encode) = some a := by
  cases a with
  | none => rfl
  | some a =>
    cases field with
    | none => cases ha
    | some v =>
      change nullable decode (encode a) = some (some a)
      rw [nullable_of_ne_null (hencode a), h (decode_of_nullable ha)]
      rfl

/-- A field with a default, which is written whatever its value. -/
theorem RoundTrip.optional {encode : α → Json} {decode : Json → Option α}
    (h : RoundTrip encode decode) {default : α} (hdefault : decode (encode default) = some default)
    {field : Option Json} {a : α} (ha : Json.optional default decode field = some a) :
    Json.optional default decode (some (encode a)) = some a := by
  cases field with
  | none =>
    cases ha
    exact hdefault
  | some v => exact h ha

theorem RoundTrip.required {encode : α → Json} {decode : Json → Option α}
    (h : RoundTrip encode decode) {field : Option Json} {a : α}
    (ha : Json.required decode field = some a) :
    Json.required decode (some (encode a)) = some a := by
  obtain ⟨v, -, hv⟩ := Option.bind_eq_some_iff.mp ha
  exact h hv

end JusticeViolation.Json
