import JusticeViolation.Memo.Encoding
import JusticeViolation.Proofs.Formula.Encoding

/-!
# Memo documents survive a round trip

A memo document that has been read may be written, in either form, and read again: the second
reading gives the same document, hence the same registry and the same memo, whatever form the first
text had. Writing fills in what had been left out and drops what had been ignored, and it opens no
container that the decoder had not opened.
-/

namespace JusticeViolation

open Json (RoundTrip)

variable {room : Nat}

/-! ## Parts of a document -/

theorem Role.roundTrip_name : RoundTrip (fun r ↦ .text r.name) (Role.ofJson? room) :=
  fun _ r _ ↦ by cases r <;> rfl

theorem Justice.legible_toJson (j : Justice) : j.toJson.Legible := by
  simp [toJson, Json.legible_object, Json.legible_text]

theorem Justice.roundTrip_toJson : RoundTrip toJson (Justice.ofJson? room) := fun v j hj ↦ by
  simp only [Justice.ofJson?, Option.bind_eq_bind, Option.bind_eq_some_iff] at hj
  obtain ⟨inner, hroom, fields, -, hnames⟩ := hj
  split at hnames
  case h_1 =>
    simp only [Option.bind_eq_some_iff, Option.pure_def, Option.some_inj] at hnames
    obtain ⟨id, hid, text, htext, rfl⟩ := hnames
    have hfields := Json.fields?_pair (show "id" ≠ "text" by decide) (.text id) (.text text)
    rw [Justice.ofJson?, hroom, toJson]
    simp only [hfields, Json.roundTrip_text.required hid, Json.roundTrip_text.optional rfl htext,
      Option.bind_eq_bind, Option.bind_some, Option.pure_def]
  case h_2 => cases hnames

namespace Memo

namespace Declaration

theorem legible_toJson (d : Declaration) : d.toJson.Legible := by
  obtain ⟨name, role, values, size⟩ := d
  cases values <;> cases size <;>
    simp [toJson, Json.legible_object, Json.legible_list, Json.legible_text, Json.legible_nat]

theorem roundTrip_size : RoundTrip Json.nat sizeOfJson? := fun v n hn ↦ by
  obtain ⟨m, -, hbound⟩ := Option.bind_eq_some_iff.mp hn
  split at hbound
  case isTrue hm =>
    cases hbound
    simp [sizeOfJson?, Json.nat?_nat, hm]
  case isFalse => cases hbound

theorem fields?_toJson (d : Declaration) :
    d.toJson.fields? ["name", "role", "values", "size"]
      = some [some (.text d.name), some (.text d.role.name),
          d.values.map fun vs ↦ .list (vs.map .text), d.size.map .nat] := by
  obtain ⟨name, role, values, size⟩ := d
  cases values <;> cases size <;>
    · rw [toJson, Json.fields?_object (by simp)]
      simp [List.lookup_cons]

theorem roundTrip_toJson : RoundTrip toJson (Declaration.ofJson? room) := fun v d hd ↦ by
  simp only [Declaration.ofJson?, Option.bind_eq_bind, Option.bind_eq_some_iff] at hd
  obtain ⟨inner, hroom, fields, -, hnames⟩ := hd
  split at hnames
  case h_1 =>
    simp only [Option.bind_eq_some_iff, Option.pure_def, Option.some_inj] at hnames
    obtain ⟨name, hname, role, hrole, values, hvalues, size, hsize, rfl⟩ := hnames
    have hlist := RoundTrip.listOf (fun _ ↦ Json.roundTrip_text) inner
    rw [Declaration.ofJson?, hroom]
    simp only [fields?_toJson, Json.roundTrip_text.required hname,
      Role.roundTrip_name.required hrole, hlist.optional_nullable (fun _ ↦ nofun) hvalues,
      roundTrip_size.optional_nullable (fun _ ↦ nofun) hsize, Option.bind_eq_bind,
      Option.bind_some, Option.pure_def]
  case h_2 => cases hnames

end Declaration

namespace Document

theorem legible_toJson (d : Document) : d.toJson.Legible := by
  simp [toJson, Json.legible_object, Json.legible_list, Declaration.legible_toJson,
    Justice.legible_toJson, Formula.legible_toJson]

theorem fields?_toJson (d : Document) :
    d.toJson.fields? fieldNames = some [
      some (.list (d.declarations.map Declaration.toJson)), some d.initial.toJson,
      some d.envTrans.toJson, some d.sysTrans.toJson,
      some (.list (d.assumptions.map Justice.toJson)),
      some (.list (d.guarantees.map Justice.toJson)),
      some (.list (d.ranks.map Formula.toJson)),
      some (.list (d.progress.map fun rows ↦
        .list (rows.map fun layers ↦ .list (layers.map Formula.toJson))))] := by
  rw [toJson, Json.fields?_object (by simp)]
  simp [fieldNames, List.lookup_cons]

/-- **A document that has been decoded is decoded again from its encoding.** -/
theorem roundTrip_toJson : RoundTrip toJson ofJson? := fun v d hd ↦ by
  simp only [ofJson?, Option.bind_eq_bind, Option.bind_eq_some_iff] at hd
  obtain ⟨room, hroom, fields, -, hnames⟩ := hd
  split at hnames
  case h_1 =>
    simp only [Option.bind_eq_some_iff, Option.pure_def, Option.some_inj] at hnames
    obtain ⟨ds, hds, initial, hinitial, envTrans, henv, sysTrans, hsys, assumptions, hassumptions,
      guarantees, hguarantees, ranks, hranks, progress, hprogress, rfl⟩ := hnames
    have hformulas := RoundTrip.listOf Formula.roundTrip_toJson
    have hlayers := RoundTrip.listOf fun room ↦ RoundTrip.listOf hformulas room
    have hjustices := RoundTrip.listOf @Justice.roundTrip_toJson room
    have hdeclarations := RoundTrip.listOf @Declaration.roundTrip_toJson room
    have hempty :
        Json.listOf room Justice.ofJson? (.list (List.map Justice.toJson [])) = some [] := by
      cases hroom
      rfl
    rw [ofJson?, hroom]
    simp only [fields?_toJson, hdeclarations.required hds,
      (Formula.roundTrip_toJson room).required hinitial,
      (Formula.roundTrip_toJson room).required henv, (Formula.roundTrip_toJson room).required hsys,
      hjustices.optional hempty hassumptions, hjustices.optional hempty hguarantees,
      (hformulas room).required hranks, (hlayers room).required hprogress, Option.bind_eq_bind,
      Option.bind_some, Option.pure_def]
  case h_2 => cases hnames

theorem parse_eq_ok {s : String} {d : Document} :
    parse s = .ok d ↔ (Json.parse? s).bind ofJson? = some d := by
  cases h : (Json.parse? s).bind ofJson? <;> simp [parse, h]

/-- **Memo documents survive a round trip.** Both written forms of a document that has been read are
read as the same document, so they stand for the same variables and the same memo. -/
theorem parse_toJson {s : String} {d : Document} (hd : parse s = .ok d) {t : String}
    (ht : t = d.toJson.compact ∨ t = d.toJson.pretty) :
    parse t = .ok d ∧ (parse t >>= registry) = (parse s >>= registry) ∧
      (parse t >>= loadUnchecked) = (parse s >>= loadUnchecked) ∧
      (parse t >>= load) = (parse s >>= load) := by
  have hvalue : Json.parse? t = some d.toJson := by
    rcases ht with rfl | rfl
    · exact Json.parse?_compact d.legible_toJson
    · exact Json.parse?_pretty d.legible_toJson
  obtain ⟨v, -, hv⟩ := Option.bind_eq_some_iff.mp (parse_eq_ok.mp hd)
  have hparse : parse t = .ok d := by
    rw [parse_eq_ok, hvalue]
    exact roundTrip_toJson hv
  rw [hparse, hd]
  exact ⟨rfl, rfl, rfl, rfl⟩

/-- A text with as many other ways of writing as it has room for: lists for records, a role and a
constant as records, a null, a field left out and one that nobody asks for. -/
def mixedText : String :=
  "[[[\"a\", \x7b\"env\": null\x7d, null, 2], " ++
    "\x7b\"name\": \"b\", \"role\": \"sys\", \"note\": 1e9\x7d], " ++
    "\x7b\"true\": null\x7d, \x7b\"eq\": [\"a\", \"0\"]\x7d, \"true\", [], [[\"g\"]], [], []]"

/-- The document of `mixedText`. -/
def mixed : Document where
  declarations := [⟨"a", .env, none, some 2⟩, ⟨"b", .sys, none, none⟩]
  initial := .top
  envTrans := .eq "a" "0"
  sysTrans := .top
  assumptions := []
  guarantees := [⟨"g", ""⟩]
  ranks := []
  progress := []

set_option maxRecDepth 8192 in
theorem parse_mixedText : parse mixedText = .ok mixed := rfl

theorem parse_toJson_mixed :
    parse mixedText = .ok mixed ∧ parse mixed.toJson.compact = .ok mixed ∧
      parse mixed.toJson.pretty = .ok mixed :=
  ⟨parse_mixedText, (parse_toJson parse_mixedText (.inl rfl)).1,
    (parse_toJson parse_mixedText (.inr rfl)).1⟩

end Document

end Memo

end JusticeViolation
