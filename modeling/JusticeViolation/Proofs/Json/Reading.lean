import JusticeViolation.Json.Reader
import JusticeViolation.Proofs.Json.Scanning

/-!
# Reading what has been written

A value that is written, in the compact or in the indented form, is read back as itself: its text
spells its tokens, blanks or not, and its tokens are put together to the value again. All that is
asked of the value is that its numbers are written as numbers are.

The reader has no recursion of its own to follow: its containers are on a stack. What carries the
argument is therefore a statement about every stack, that the tokens of a value take the reader
from waiting for a value to having delivered it.
-/

namespace JusticeViolation.Json

/-! ## Legible values -/

/-- The numbers of a value are written as numbers are. -/
def Legible (v : Json) : Prop := ∀ digits, .num digits ∈ v.tokens → IsNumeral digits.toList

theorem num_mem_itemTokens {digits : String} :
    ∀ {vs : List Json}, .num digits ∈ itemTokens vs ↔ ∃ v ∈ vs, .num digits ∈ v.tokens
  | [] => by simp [itemTokens]
  | [v] => by simp [itemTokens]
  | v :: w :: vs => by
    have ih : .num digits ∈ itemTokens (w :: vs) ↔ _ := num_mem_itemTokens
    simp only [itemTokens, List.mem_append, List.mem_cons, ih]
    simp

theorem num_mem_memberTokens {digits : String} :
    ∀ {ms : List (Option String × Json)},
      .num digits ∈ memberTokens ms ↔ ∃ m ∈ ms, .num digits ∈ m.2.tokens
  | [] => by simp [memberTokens]
  | [(k, v)] => by simp [memberTokens]
  | (k, v) :: m :: ms => by
    have ih : .num digits ∈ memberTokens (m :: ms) ↔ _ := num_mem_memberTokens
    simp only [memberTokens, List.mem_append, List.mem_cons, ih]
    simp

theorem legible_list {vs : List Json} : (list vs).Legible ↔ ∀ v ∈ vs, v.Legible := by
  simp only [Legible, tokens, List.mem_append, List.mem_cons, reduceCtorEq, List.not_mem_nil,
    false_or, or_false, num_mem_itemTokens]
  exact ⟨fun h v hv d hd ↦ h d ⟨v, hv, hd⟩, fun h d ⟨v, hv, hd⟩ ↦ h v hv d hd⟩

theorem legible_record {ms : List (Option String × Json)} :
    (record ms).Legible ↔ ∀ m ∈ ms, m.2.Legible := by
  simp only [Legible, tokens, List.mem_append, List.mem_cons, reduceCtorEq, List.not_mem_nil,
    false_or, or_false, num_mem_memberTokens]
  exact ⟨fun h m hm d hd ↦ h d ⟨m, hm, hd⟩, fun h d ⟨m, hm, hd⟩ ↦ h m hm d hd⟩

theorem legible_object {ms : List (String × Json)} :
    (object ms).Legible ↔ ∀ m ∈ ms, m.2.Legible := by
  rw [object, legible_record, List.forall_mem_map]

theorem legible_text (s : String) : (text s).Legible := by
  simp [Legible, text, tokens]

theorem legible_nat (n : Nat) : (nat n).Legible := by
  simpa [Legible, nat, tokens] using isNumeral_toString n

/-! ## The compact form -/

mutual

/-- The compact form of a value spells its tokens. -/
theorem spells_tokens : ∀ {v : Json}, v.Legible → Spells (v.tokens.flatMap Token.chars) v.tokens
  | null, _ => .null
  | bool b, _ => by simpa [tokens] using Spells.bool b
  | num digits, h => by
    simpa [tokens, Token.chars] using Spells.numeral (h digits (by simp [tokens]))
  | str s, _ => by simpa [tokens, Token.chars] using Spells.quote s
  | list vs, h => by
    have hitems := spells_itemTokens (legible_list.mp h)
    have hclose : Spells [']'] [.closeList] := .mark rfl .nil
    simpa [tokens, Token.chars] using (hitems.append hclose rfl).mark (c := '[') rfl
  | record ms, h => by
    have hmembers := spells_memberTokens (legible_record.mp h)
    have hclose : Spells ['\x7d'] [.closeRecord] := .mark rfl .nil
    simpa [tokens, Token.chars] using (hmembers.append hclose rfl).mark (c := '\x7b') rfl

theorem spells_itemTokens :
    ∀ {vs : List Json}, (∀ v ∈ vs, v.Legible) →
      Spells ((itemTokens vs).flatMap Token.chars) (itemTokens vs)
  | [], _ => .nil
  | [v], h => spells_tokens (h v (by simp))
  | v :: w :: vs, h => by
    have hfirst := spells_tokens (h v (by simp))
    have hrest := spells_itemTokens fun u hu ↦ h u (List.mem_cons_of_mem v hu)
    simpa [itemTokens, Token.chars] using hfirst.append (hrest.mark (c := ',') rfl) rfl

theorem spells_memberTokens :
    ∀ {ms : List (Option String × Json)}, (∀ m ∈ ms, m.2.Legible) →
      Spells ((memberTokens ms).flatMap Token.chars) (memberTokens ms)
  | [], _ => .nil
  | [(k, v)], h => by
    have hvalue := spells_tokens (h (k, v) (by simp))
    simpa [memberTokens, Token.chars] using
      (Spells.quote k).append (hvalue.mark (c := ':') rfl) rfl
  | (k, v) :: m :: ms, h => by
    have hvalue := spells_tokens (h (k, v) (by simp))
    have hrest := spells_memberTokens fun u hu ↦ h u (List.mem_cons_of_mem (k, v) hu)
    simpa [memberTokens, Token.chars] using (Spells.quote k).append
      ((hvalue.append (hrest.mark (c := ',') rfl) rfl).mark (c := ':') rfl) rfl

end

/-! ## The indented form -/

theorem toList_newline (depth : Nat) :
    (newline depth).toList = '\n' :: List.replicate (2 * depth) ' ' := by
  simp [newline]

namespace Spells

variable {cs cs' : List Char} {ts ts' : List Token}

/-- A new line in front. -/
theorem newline (depth : Nat) (h : Spells cs ts) :
    Spells ((newline depth).toList ++ cs) ts := by
  have hblanks (n : Nat) : Spells (List.replicate n ' ' ++ cs) ts := by
    induction n with
    | zero => exact h
    | succ n ih => exact ih.blank rfl
  rw [toList_newline, List.cons_append]
  exact (hblanks (2 * depth)).blank rfl

/-- Texts on two lines are put together. -/
theorem append_newline (depth : Nat) (h : Spells cs ts) (h' : Spells cs' ts') :
    Spells (cs ++ ((Json.newline depth).toList ++ cs')) (ts ++ ts') := by
  have hsecond := h'.newline depth
  rw [toList_newline, List.cons_append] at hsecond ⊢
  exact h.append hsecond rfl

end Spells

mutual

/-- The indented form of a value spells its tokens, at every depth. -/
theorem spells_layout :
    ∀ (depth : Nat) {v : Json}, v.Legible → Spells (layout depth v).toList v.tokens
  | _, null, _ => by
    rw [tokens, layout]
    exact .null
  | _, bool b, _ => by
    have hword : (toString b).toList = (Token.bool b).chars := by cases b <;> rfl
    rw [tokens, layout, hword]
    exact .bool b
  | _, num digits, h => by
    simpa [tokens, layout] using Spells.numeral (h digits (by simp [tokens]))
  | _, str s, _ => by simpa [tokens, layout] using Spells.quote s
  | _, list [], _ => by
    have hempty : Spells ['[', ']'] [.openList, .closeList] := .mark rfl (.mark rfl .nil)
    simpa [tokens, itemTokens, layout] using hempty
  | depth, list (v :: vs), h => by
    have hitems := spells_layoutItems (depth + 1) (legible_list.mp h)
    have hclose : Spells [']'] [.closeList] := .mark rfl .nil
    simpa [tokens, layout] using
      ((hitems.append_newline depth hclose).newline (depth + 1)).mark (c := '[') rfl
  | _, record [], _ => by
    have hempty : Spells ['\x7b', '\x7d'] [.openRecord, .closeRecord] := .mark rfl (.mark rfl .nil)
    simpa [tokens, memberTokens, layout] using hempty
  | depth, record (m :: ms), h => by
    have hmembers := spells_layoutMembers (depth + 1) (legible_record.mp h)
    have hclose : Spells ['\x7d'] [.closeRecord] := .mark rfl .nil
    simpa [tokens, layout] using
      ((hmembers.append_newline depth hclose).newline (depth + 1)).mark (c := '\x7b') rfl

theorem spells_layoutItems :
    ∀ (depth : Nat) {vs : List Json}, (∀ v ∈ vs, v.Legible) →
      Spells (layoutItems depth vs).toList (itemTokens vs)
  | _, [], _ => .nil
  | depth, [v], h => spells_layout depth (h v (by simp))
  | depth, v :: w :: vs, h => by
    have hfirst := spells_layout depth (h v (by simp))
    have hrest := spells_layoutItems depth fun u hu ↦ h u (List.mem_cons_of_mem v hu)
    simpa [itemTokens, layoutItems] using
      hfirst.append ((hrest.newline depth).mark (c := ',') rfl) rfl

theorem spells_layoutMembers :
    ∀ (depth : Nat) {ms : List (Option String × Json)}, (∀ m ∈ ms, m.2.Legible) →
      Spells (layoutMembers depth ms).toList (memberTokens ms)
  | _, [], _ => .nil
  | depth, [(k, v)], h => by
    have hvalue := spells_layout depth (h (k, v) (by simp))
    simpa [memberTokens, layoutMembers] using
      (Spells.quote k).append ((hvalue.blank (c := ' ') rfl).mark (c := ':') rfl) rfl
  | depth, (k, v) :: m :: ms, h => by
    have hvalue := spells_layout depth (h (k, v) (by simp))
    have hrest := spells_layoutMembers depth
      fun u hu ↦ h u (List.mem_cons_of_mem (k, v) hu)
    have hafter := hvalue.append ((hrest.newline depth).mark (c := ',') rfl) rfl
    simpa [memberTokens, layoutMembers] using
      (Spells.quote k).append ((hafter.blank (c := ' ') rfl).mark (c := ':') rfl) rfl

end

/-! ## Putting tokens together -/

namespace Reader

/-- The first item of a list is read as every other item. -/
theorem run_firstItem (v : Json) (vs : List Json) (stack : List Frame) (ts : List Token) :
    run (firstItem stack) (itemTokens (v :: vs) ++ ts)
      = run (value (.list [] :: stack)) (itemTokens (v :: vs) ++ ts) := by
  cases vs <;> cases v <;> rfl

/-- The first key of a record is read as every other key. -/
theorem run_firstKey (m : Option String × Json) (ms : List (Option String × Json))
    (stack : List Frame) (ts : List Token) :
    run (firstKey stack) (memberTokens (m :: ms) ++ ts)
      = run (nextKey [] stack) (memberTokens (m :: ms) ++ ts) := by
  cases ms <;> rfl

theorem run_openList (vs : List Json) (stack : List Frame) (ts : List Token) :
    run (value stack) ((list vs).tokens ++ ts)
      = run (firstItem stack) (itemTokens vs ++ .closeList :: ts) := by
  rw [tokens, List.append_assoc]
  rfl

theorem run_openRecord (ms : List (Option String × Json)) (stack : List Frame) (ts : List Token) :
    run (value stack) ((record ms).tokens ++ ts)
      = run (firstKey stack) (memberTokens ms ++ .closeRecord :: ts) := by
  rw [tokens, List.append_assoc]
  rfl

mutual

/-- **The tokens of a value deliver it**, whatever containers are open. -/
theorem run_tokens :
    ∀ (v : Json) (stack : List Frame) (ts : List Token),
      run (value stack) (v.tokens ++ ts) = run (deliver v stack) ts
  | null, _, _ | bool _, _, _ | num _, _, _ | str _, _, _ => rfl
  | list [], _, _ | record [], _, _ => rfl
  | list (v :: vs), stack, ts => by
    rw [run_openList, run_firstItem, run_itemTokens (v :: vs) (by simp)]
    rfl
  | record (m :: ms), stack, ts => by
    rw [run_openRecord, run_firstKey, run_memberTokens (m :: ms) (by simp)]
    rfl

/-- The tokens of items, behind those already found, complete their list. -/
theorem run_itemTokens :
    ∀ (vs : List Json), vs ≠ [] → ∀ (found : List Json) (stack : List Frame) (ts : List Token),
      run (value (.list found :: stack)) (itemTokens vs ++ .closeList :: ts)
        = run (deliver (.list (found.reverse ++ vs)) stack) ts
  | [], h, _, _, _ => absurd rfl h
  | [v], _, found, stack, ts => by
    rw [itemTokens, run_tokens v, ← List.reverse_cons]
    rfl
  | v :: w :: vs, _, found, stack, ts => by
    have hrest := run_itemTokens (w :: vs) (by simp) (v :: found) stack ts
    rw [List.reverse_cons, List.append_assoc, List.singleton_append] at hrest
    rw [itemTokens, List.append_assoc, run_tokens v]
    exact hrest

/-- The tokens of members, behind those already found, complete their record. -/
theorem run_memberTokens :
    ∀ (ms : List (Option String × Json)), ms ≠ [] →
      ∀ (found : List (Option String × Json)) (stack : List Frame) (ts : List Token),
        run (nextKey found stack) (memberTokens ms ++ .closeRecord :: ts)
          = run (deliver (.record (found.reverse ++ ms)) stack) ts
  | [], h, _, _, _ => absurd rfl h
  | [(k, v)], _, found, stack, ts => by
    rw [← List.reverse_cons]
    exact run_tokens v (.record found k :: stack) (.closeRecord :: ts)
  | (k, v) :: m :: ms, _, found, stack, ts => by
    have hvalue := run_tokens v (.record found k :: stack)
      (.comma :: memberTokens (m :: ms) ++ .closeRecord :: ts)
    have hrest := run_memberTokens (m :: ms) (by simp) ((k, v) :: found) stack ts
    rw [List.reverse_cons, List.append_assoc, List.singleton_append] at hrest
    rw [memberTokens, List.append_assoc]
    exact hvalue.trans hrest

end

end Reader

/-- **The tokens of a value denote it.** -/
theorem ofTokens?_tokens (v : Json) : ofTokens? v.tokens = some v := by
  have hrun := Reader.run_tokens v [] []
  rw [List.append_nil] at hrun
  rw [ofTokens?, hrun]
  rfl

/-- **The compact form of a value is read back as the value.** -/
theorem parse?_compact {v : Json} (h : v.Legible) : parse? v.compact = some v := by
  have hspells : Spells v.compact.toList v.tokens := by
    rw [compact, String.toList_ofList]
    exact spells_tokens h
  rw [parse?, hspells.scan?]
  exact ofTokens?_tokens v

/-- **The indented form of a value is read back as the value.** -/
theorem parse?_pretty {v : Json} (h : v.Legible) : parse? v.pretty = some v := by
  rw [parse?, pretty, (spells_layout 0 h).scan?]
  exact ofTokens?_tokens v

end JusticeViolation.Json
