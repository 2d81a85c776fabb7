import Mathlib.Data.Char
import Mathlib.Tactic.IntervalCases
import JusticeViolation.Json.Printer

/-!
# Scanning what has been written

Whatever is written of a token is scanned as that token. For a string, this is so character by
character, whether a character stands for itself or is written as an escape; code units that are not
half of a pair denote the characters they come from. A number is the one token that does not say
where it ends, so it has to be followed by something that does not continue it: a separator, a
closing bracket, a blank or the end of the text.

`Spells cs ts` says that the characters `cs` are scanned as the tokens `ts`, whatever has been read
before and whatever follows, as long as a number may end there. Texts are put together from such
pieces.
-/

namespace JusticeViolation.Json

/-! ## Code units -/

/-- No character is half of a surrogate pair. -/
theorem not_half_toNat (c : Char) : isHighHalf c.toNat = false ∧ isLowHalf c.toNat = false := by
  have hvalid : c.toNat < 0xD800 ∨ 0xDFFF < c.toNat ∧ c.toNat < 0x110000 := c.valid
  simp only [isHighHalf, isLowHalf, Bool.and_eq_false_iff, decide_eq_false_iff_not]
  omega

theorem decodeUnits_cons (c : Char) (us : List Nat) :
    decodeUnits (c.toNat :: us) = (decodeUnits us).map (c :: ·) := by
  obtain ⟨hhigh, hlow⟩ := not_half_toNat c
  cases us <;> simp [decodeUnits, hhigh, hlow, Char.ofNat_toNat]

/-- **The units of a text denote it.** -/
theorem decodeUnits_map_toNat (cs : List Char) : decodeUnits (cs.map Char.toNat) = some cs := by
  induction cs with
  | nil => rfl
  | cons c cs ih => rw [List.map_cons, decodeUnits_cons, ih]; rfl

/-! ## Strings -/

namespace Scanner

variable {found : List Token} {units : List Nat} {rest : List Char}

theorem run_cons {s t : Scanner} {c : Char} {ts : List Token} (h : s.step c = some (ts, t)) :
    run found s (c :: rest) = run (ts.reverse ++ found) t rest := by
  rw [run, h]

/-- A step that completes no token. -/
theorem run_quiet {s t : Scanner} {c : Char} (h : s.step c = some ([], t)) :
    run found s (c :: rest) = run found t rest := run_cons h

theorem hexDigit?_hexDigit : ∀ n : Fin 16, hexDigit? (hexDigit n) = some n.val := by decide

/-- An escape of one letter. -/
theorem run_shortEscape {letter : Char} {u : Nat} (hu : (letter == 'u') = false)
    (h : shortEscape? letter = some u) :
    run found (string units) ('\\' :: letter :: rest) = run found (string (u :: units)) rest := by
  have hletter : (escape units).step letter = some ([], string (u :: units)) := by
    rw [step, hu, h]
    rfl
  rw [run_quiet (t := escape units) rfl, run_quiet hletter]

theorem step_hex {missing value n : Nat} (hn : n < 16) (hmissing : 1 < missing) :
    (hex units missing value).step (hexDigit n)
      = some ([], hex units (missing - 1) (16 * value + n)) := by
  rw [step, hexDigit?_hexDigit ⟨n, hn⟩, Option.map_some, if_neg (by omega)]

theorem step_lastHex {value n : Nat} (hn : n < 16) :
    (hex units 1 value).step (hexDigit n) = some ([], string ((16 * value + n) :: units)) := by
  rw [step, hexDigit?_hexDigit ⟨n, hn⟩]
  rfl

/-- A numeric escape of a control character. -/
theorem run_hexEscape {n : Nat} (hn : n < 0x20) :
    run found (string units)
        ('\\' :: 'u' :: '0' :: '0' :: hexDigit (n / 16) :: hexDigit (n % 16) :: rest)
      = run found (string (n :: units)) rest := by
  rw [run_quiet (t := escape units) rfl, run_quiet (t := hex units 4 0) rfl,
    run_quiet (t := hex units 3 0) rfl, run_quiet (t := hex units 2 0) rfl,
    run_quiet (step_hex (by omega) (by omega)), run_quiet (step_lastHex (by omega)),
    show 16 * (16 * 0 + n / 16) + n % 16 = n by omega]

/-- **A character of a string is read as it is written**, by itself or by an escape. -/
theorem run_escapeChar (c : Char) :
    run found (string units) (escapeChar c ++ rest)
      = run found (string (c.toNat :: units)) rest := by
  unfold escapeChar
  split
  case h_1 | h_2 | h_3 | h_4 | h_5 => exact run_shortEscape rfl rfl
  case h_6 hquote hslash _ _ _ =>
    split_ifs with hback hfeed hcontrol
    · rw [beq_iff_eq.mp hback]
      exact run_shortEscape rfl rfl
    · rw [beq_iff_eq.mp hfeed]
      exact run_shortEscape rfl rfl
    · exact run_hexEscape hcontrol
    · refine run_quiet ?_
      rw [step, if_neg (by simpa using hquote), if_neg (by simpa using hslash), if_neg hcontrol]

theorem run_escapeChars (cs : List Char) :
    run found (string units) (cs.flatMap escapeChar ++ rest)
      = run found (string ((cs.map Char.toNat).reverse ++ units)) rest := by
  induction cs generalizing units with
  | nil => rfl
  | cons c cs ih =>
    rw [List.flatMap_cons, List.append_assoc, run_escapeChar, ih, List.map_cons, List.reverse_cons,
      List.append_assoc, List.singleton_append]

/-- **A string is read as it is quoted.** -/
theorem run_quote (s : Option String) :
    run found idle (quote s ++ rest) = run (.str s :: found) idle rest := by
  cases s with
  | none => rfl
  | some s =>
    have htoken : stringToken (s.toList.map Char.toNat).reverse = .str (some s) := by
      rw [stringToken, List.reverse_reverse, decodeUnits_map_toNat, Option.map_some,
        String.ofList_toList]
    rw [quote, List.cons_append, List.cons_append, List.append_assoc,
      run_quiet (t := string []) rfl, run_escapeChars, List.append_nil, List.singleton_append]
    have hclose : (string (s.toList.map Char.toNat).reverse).step '"'
        = some ([.str (some s)], idle) := by
      rw [step, htoken]
      rfl
    exact run_cons hclose

end Scanner

/-! ## Numbers -/

namespace NumberPart

/-- The part that several characters lead to. -/
def follow? (part : NumberPart) (cs : List Char) : Option NumberPart := cs.foldlM next? part

/-- Whether a number may go on with this character where it may also end. -/
def continues (c : Char) : Bool := c.isDigit || c == '.' || c == 'e' || c == 'E'

theorem next?_eq_none {part : NumberPart} {c : Char} (hpart : part.complete = true)
    (hc : continues c = false) : part.next? c = none := by
  simp only [continues, Bool.or_eq_false_iff] at hc
  cases part <;> simp_all [complete, next?]

end NumberPart

/-- The characters of a number, a sign included. -/
def IsNumeral (cs : List Char) : Prop :=
  ∃ part : NumberPart, part.complete = true ∧
    (NumberPart.sign.follow? cs = some part ∨
      ∃ ds, cs = '-' :: ds ∧ NumberPart.sign.follow? ds = some part)

/-- A number ends in front of these characters. -/
def EndsNumber (rest : List Char) : Prop := ∀ c ∈ rest.head?, NumberPart.continues c = false

theorem endsNumber_cons {c : Char} {cs : List Char} (h : NumberPart.continues c = false) :
    EndsNumber (c :: cs) := by
  simpa [EndsNumber] using h

namespace Scanner

variable {found : List Token} {rest : List Char}

theorem run_follow? {part part' : NumberPart} {cs ds : List Char}
    (h : part.follow? cs = some part') :
    run found (number part ds) (cs ++ rest) = run found (number part' (cs.reverse ++ ds)) rest := by
  induction cs generalizing part ds with
  | nil =>
    cases h
    rfl
  | cons c cs ih =>
    obtain ⟨next, hnext, hrest⟩ := Option.bind_eq_some_iff.mp h
    rw [List.cons_append, run_quiet (t := number next (c :: ds)), ih hrest, List.reverse_cons,
      List.append_assoc, List.singleton_append]
    rw [step, hnext]

theorem step_digit {c : Char} {part : NumberPart} (h : NumberPart.sign.next? c = some part) :
    idle.step c = some ([], number part [c]) := by
  change start c = _
  unfold start
  split
  case h_16 => rw [h]; rfl
  all_goals cases h

/-- A number that has ended is handed out. -/
theorem run_ended {part : NumberPart} {ds : List Char} (hpart : part.complete = true)
    (hrest : EndsNumber rest) :
    run found (number part ds) rest = run (.num (String.ofList ds.reverse) :: found) idle rest := by
  cases rest with
  | nil => simp [run, finish?, hpart]
  | cons c cs =>
    have hnext := NumberPart.next?_eq_none hpart (hrest c rfl)
    simp only [run, step, hnext, hpart, if_true]
    cases start c <;> simp

/-- **A number is read as it is written**, in front of what does not continue it. -/
theorem run_numeral {cs : List Char} (h : IsNumeral cs) (hrest : EndsNumber rest) :
    run found idle (cs ++ rest) = run (.num (String.ofList cs) :: found) idle rest := by
  obtain ⟨part, hpart, hplain | ⟨ds, rfl, hsigned⟩⟩ := h
  · cases cs with
    | nil =>
      cases hplain
      cases hpart
    | cons c cs =>
      obtain ⟨next, hnext, hfollow⟩ := Option.bind_eq_some_iff.mp hplain
      rw [List.cons_append, run_quiet (step_digit hnext), run_follow? hfollow,
        run_ended hpart hrest]
      simp
  · rw [List.cons_append, run_quiet (t := number .sign ['-']) rfl, run_follow? hsigned,
      run_ended hpart hrest]
    simp

end Scanner

/-! ### Natural numbers -/

theorem follow?_toDigits (n : Nat) :
    NumberPart.sign.follow? (Nat.toDigits 10 n) = some (if n = 0 then .zero else .whole) := by
  induction n using Nat.strong_induction_on with
  | h n ih =>
    have hdigit (m : Nat) : (Nat.digitChar (m % 10)).isDigit = true := by
      rw [Nat.isDigit_digitChar, decide_eq_true_iff]
      omega
    rcases Nat.lt_or_ge n 10 with hsmall | hlarge
    · interval_cases n <;> rfl
    · rw [Nat.toDigits_of_base_le (by omega) hlarge, NumberPart.follow?, List.foldlM_append]
      have hleading := ih (n / 10) (by omega)
      rw [if_neg (by omega), NumberPart.follow?] at hleading
      rw [hleading, if_neg (by omega)]
      simp [NumberPart.next?, hdigit]

theorem isNumeral_toString (n : Nat) : IsNumeral (toString n).toList := by
  rw [Nat.toString_eq_repr, Nat.toList_repr]
  exact ⟨_, by split <;> rfl, .inl (follow?_toDigits n)⟩

/-! ## Texts of token sequences -/

/-- These characters are scanned as these tokens, in front of anything that does not continue a
number. -/
def Spells (cs : List Char) (ts : List Token) : Prop :=
  ∀ (found : List Token) (rest : List Char), EndsNumber rest →
    Scanner.run found .idle (cs ++ rest) = Scanner.run (ts.reverse ++ found) .idle rest

namespace Spells

variable {cs cs' : List Char} {ts ts' : List Token} {c : Char}

theorem nil : Spells [] [] := fun _ _ _ ↦ rfl

/-- A bracket or separator in front. -/
theorem mark {t : Token} (hc : Scanner.idle.step c = some ([t], .idle)) (h : Spells cs ts) :
    Spells (c :: cs) (t :: ts) := fun found rest hrest ↦ by
  rw [List.cons_append, Scanner.run_cons hc, h _ _ hrest]
  simp

/-- A blank in front. -/
theorem blank (hc : Scanner.idle.step c = some ([], .idle)) (h : Spells cs ts) :
    Spells (c :: cs) ts := fun found rest hrest ↦ by
  rw [List.cons_append, Scanner.run_quiet hc, h _ _ hrest]

/-- Texts are put together where the second one does not continue a number. -/
theorem append (h : Spells cs ts) (h' : Spells (c :: cs') ts')
    (hc : NumberPart.continues c = false) : Spells (cs ++ c :: cs') (ts ++ ts') :=
  fun found rest hrest ↦ by
    rw [List.append_assoc, List.cons_append, h _ _ (endsNumber_cons hc), ← List.cons_append,
      h' _ _ hrest, List.reverse_append, List.append_assoc]

theorem null : Spells Token.null.chars [.null] := fun _ _ _ ↦ rfl

theorem bool (b : Bool) : Spells (Token.bool b).chars [.bool b] := by
  cases b <;> exact fun _ _ _ ↦ rfl

theorem quote (s : Option String) : Spells (quote s) [.str s] :=
  fun _ _ _ ↦ Scanner.run_quote s

theorem numeral {digits : String} (h : IsNumeral digits.toList) :
    Spells digits.toList [.num digits] := fun found rest hrest ↦ by
  rw [Scanner.run_numeral h hrest, String.ofList_toList]
  rfl

/-- **A text that spells tokens is scanned as these.** -/
theorem scan? {s : String} (h : Spells s.toList ts) : Json.scan? s = some ts := by
  have hrun := h [] [] (by simp [EndsNumber])
  rw [List.append_nil] at hrun
  rw [Json.scan?, hrun]
  simp [Scanner.run, Scanner.finish?]

end Spells

end JusticeViolation.Json
