import JusticeViolation.Formula.Encoding
import JusticeViolation.Proofs.Json.Decoding

/-!
# Formulas are read as they are written

By induction on the room: every step into a formula takes some of it, and the encoding takes no
more than what was decoded. Constants are the only place where the two differ, since a constant
may be given as a record but is written as a string.
-/

namespace JusticeViolation.Formula

open Json (RoundTrip)

variable {room : Nat}

/-! ## What is written can be read -/

theorem listToJson_eq_map (fs : List Formula) : listToJson fs = fs.map toJson := by
  induction fs with
  | nil => rfl
  | cons f fs ih => rw [listToJson, ih, List.map_cons]

mutual

theorem legible_toJson : ∀ f : Formula, f.toJson.Legible
  | top | bottom => Json.legible_text _
  | eq name value | same name value => by
    simp [toJson, Json.legible_object, Json.legible_text]
  | not body => by simpa [toJson, Json.legible_object] using legible_toJson body
  | and parts | or parts => by
    simpa [toJson, Json.legible_object, Json.legible_list] using legible_listToJson parts
  | implies premise conclusion | iff premise conclusion => by
    simpa [toJson, Json.legible_object, Json.legible_list] using
      ⟨legible_toJson premise, legible_toJson conclusion⟩

theorem legible_listToJson : ∀ fs : List Formula, ∀ v ∈ listToJson fs, v.Legible
  | [] => by simp [listToJson]
  | f :: fs => by
    simpa [listToJson] using ⟨legible_toJson f, legible_listToJson fs⟩

end

/-! ## Leaves -/

/-- A constant is written as a string, which takes no room. -/
theorem ofJson?_constant {name : String} {f : Formula} (h : constantOfName? name = some f) :
    ofJson? room f.toJson = some f := by
  unfold constantOfName? at h
  split at h
  case h_1 | h_2 =>
    cases h
    cases room <;> rfl
  case h_3 => cases h

theorem leafOfJson?_object {first second : String} (hne : first ≠ second)
    {make : String → String → Formula} {v : Json} {f : Formula}
    (hf : leafOfJson? room first second make v = some f) :
    ∃ a b, f = make a b ∧
      leafOfJson? room first second make (.object [(first, .text a), (second, .text b)])
        = some f := by
  obtain ⟨inner, hroom, hfields⟩ := Option.bind_eq_some_iff.mp hf
  obtain ⟨fields, -, hnames⟩ := Option.bind_eq_some_iff.mp hfields
  split at hnames
  case h_1 x y =>
    obtain ⟨a, -, hb⟩ := Option.bind_eq_some_iff.mp hnames
    obtain ⟨b, -, hmake⟩ := Option.bind_eq_some_iff.mp hb
    cases hmake
    refine ⟨a, b, rfl, ?_⟩
    rw [leafOfJson?, hroom]
    simp [Json.fields?_pair hne, Json.required, Json.text, Json.text?]
  case h_2 => cases hnames

/-! ## Connectives -/

theorem ofJson?_and (fs : List Formula) :
    ofJson? (room + 2) (and fs).toJson = ((fs.map toJson).mapM (ofJson? room)).map and := by
  rw [toJson, listToJson_eq_map]
  rfl

theorem ofJson?_or (fs : List Formula) :
    ofJson? (room + 2) (or fs).toJson = ((fs.map toJson).mapM (ofJson? room)).map or := by
  rw [toJson, listToJson_eq_map]
  rfl

theorem ofJson?_implies (f g : Formula) :
    ofJson? (room + 2) (implies f g).toJson = (do
      return implies (← ofJson? room f.toJson) (← ofJson? room g.toJson)) := rfl

theorem ofJson?_iff (f g : Formula) :
    ofJson? (room + 2) (iff f g).toJson = (do
      return iff (← ofJson? room f.toJson) (← ofJson? room g.toJson)) := rfl

/-- **A formula that has been decoded is decoded again from its encoding**, within the same room. -/
theorem roundTrip_toJson (room : Nat) : RoundTrip toJson (ofJson? room) := by
  induction room using Nat.strong_induction_on with
  | h room ih =>
    intro v f hf
    revert hf
    fun_cases ofJson? room v with
    | case1 s =>
      intro hf
      obtain ⟨name, -, hname⟩ := Option.bind_eq_some_iff.mp hf
      exact ofJson?_constant hname
    | case2 room v =>
      intro hf
      obtain ⟨name, value, rfl, hleaf⟩ := leafOfJson?_object (by decide) hf
      exact hleaf
    | case3 room v =>
      intro hf
      obtain ⟨name, other, rfl, hleaf⟩ := leafOfJson?_object (by decide) hf
      exact hleaf
    | case4 room v =>
      intro hf
      obtain ⟨body, hbody, rfl⟩ := Option.map_eq_some_iff.mp hf
      change (ofJson? room body.toJson).map not = some (not body)
      rw [ih room (by omega) hbody]
      rfl
    | case6 items room =>
      intro hf
      obtain ⟨fs, hfs, rfl⟩ := Option.map_eq_some_iff.mp hf
      rw [ofJson?_and, (ih room (by omega)).mapM hfs]
      rfl
    | case8 items room =>
      intro hf
      obtain ⟨fs, hfs, rfl⟩ := Option.map_eq_some_iff.mp hf
      rw [ofJson?_or, (ih room (by omega)).mapM hfs]
      rfl
    | case10 p q room =>
      intro hf
      obtain ⟨f, hp, hrest⟩ := Option.bind_eq_some_iff.mp hf
      obtain ⟨g, hq, hmake⟩ := Option.bind_eq_some_iff.mp hrest
      cases hmake
      rw [ofJson?_implies, ih room (by omega) hp, ih room (by omega) hq]
      rfl
    | case12 p q room =>
      intro hf
      obtain ⟨f, hp, hrest⟩ := Option.bind_eq_some_iff.mp hf
      obtain ⟨g, hq, hmake⟩ := Option.bind_eq_some_iff.mp hrest
      cases hmake
      rw [ofJson?_iff, ih room (by omega) hp, ih room (by omega) hq]
      rfl
    | case13 room head =>
      intro hf
      exact ofJson?_constant hf
    | case5 | case7 | case9 | case11 | case14 | case15 => nofun

end JusticeViolation.Formula
