import Cubature.Proofs.Json.Grammar
import Mathlib.Data.List.TakeDrop
import Mathlib.Data.List.TakeWhile

/-!
# The reader and the grammar

`Json.read?` answers with a value exactly on the texts that spell the value
(`Json.read?_eq_some_iff`).

* `stringBody_ok`, `numeral?_ok`, `key?_ok`: what is read as a string, a number or a key is written.
  `stringBody_append`, `numeral?_append`, `key?_of_laid`: what is written is read, with the text
  after it left over. A number must be followed by something that cannot go on with it (`Stops`).
* `ReadsWritten`, `ReadsBack`: the same for values, items and members at once, by induction on the
  depth. Two levels for each token are enough.
-/

namespace Cubature.Json

/-! ## Blanks -/

theorem skipBlanks_append {blanks : List Char} (h : ∀ c ∈ blanks, isBlank c = true)
    (text : List Char) : skipBlanks (blanks ++ text) = skipBlanks text :=
  List.dropWhile_append_of_pos h

theorem skipBlanks_cons {c : Char} (h : isBlank c = false) (text : List Char) :
    skipBlanks (c :: text) = c :: text := by
  rw [skipBlanks, List.dropWhile_cons_of_neg (by simp [h])]

theorem exists_blanks (text : List Char) :
    ∃ blanks, (∀ c ∈ blanks, isBlank c = true) ∧ text = blanks ++ skipBlanks text :=
  ⟨text.takeWhile isBlank, fun _ hc => List.mem_takeWhile_imp hc,
    (List.takeWhile_append_dropWhile).symm⟩

/-! ## Strings -/

/-- What is read as the rest of a string is written by the text up to its closing quote. -/
theorem stringBody_ok {text rest : List Char} {pieces : List Piece}
    (h : stringBody text = some (pieces, rest)) :
    ∃ written, WritesPieces pieces written ∧ text = written ++ '"' :: rest := by
  fun_induction stringBody text generalizing pieces with
  | case1 => cases h
  | case2 =>
    cases h
    exact ⟨[], .nil, rfl⟩
  | case3 a b c d text code pieces' rest' hbody hunit ih =>
    cases h
    obtain ⟨written, hwritten, rfl⟩ := ih hbody
    exact ⟨_, .unit hunit hwritten, rfl⟩
  | case5 letter text _ c pieces' rest' hbody hletter ih =>
    cases h
    obtain ⟨written, hwritten, rfl⟩ := ih hbody
    exact ⟨_, .escape hletter hwritten, rfl⟩
  | case8 c text hquote _ _ hplain pieces' rest' hbody ih =>
    cases h
    obtain ⟨written, hwritten, rfl⟩ := ih hbody
    simp only [Bool.or_eq_true, decide_eq_true_eq, not_or, not_lt] at hplain
    exact ⟨_, .plain hquote hplain.1 hplain.2 hwritten, rfl⟩
  | case4 | case6 | case7 | case9 => cases h

/-- What is written before a closing quote is read as the rest of a string. -/
theorem stringBody_append {pieces : List Piece} {written : List Char}
    (h : WritesPieces pieces written) (rest : List Char) :
    stringBody (written ++ '"' :: rest) = some (pieces, rest) := by
  induction h with
  | nil => rfl
  | @plain c pieces text hquote hescape hcontrol _ ih =>
    have hplain : ¬(decide (c = '\\') || decide (c.toNat < 0x20)) = true := by
      simp [hescape, hcontrol]
    rw [List.cons_append, stringBody.eq_5 _ _ hquote (fun _ _ _ _ _ he => absurd he hescape)
      (fun _ _ he => absurd he hescape), if_neg hplain, ih]
  | @escape letter c pieces text hletter _ ih =>
    have hunit : letter ≠ 'u' := by
      rintro rfl
      cases hletter
    rw [List.cons_append, List.cons_append,
      stringBody.eq_4 _ _ (fun _ _ _ _ _ he => absurd he hunit), hletter, ih]
  | unit hunit _ ih =>
    simp only [List.cons_append, stringBody, hunit, ih]

theorem writesString_iff {text rest : List Char} {pieces : List Piece} :
    stringBody text = some (pieces, rest) ↔
      ∃ token, WritesString pieces token ∧ '"' :: text = token ++ rest := by
  constructor
  · intro h
    obtain ⟨written, hwritten, rfl⟩ := stringBody_ok h
    exact ⟨_, ⟨written, hwritten, rfl⟩, by simp⟩
  · rintro ⟨_, ⟨written, hwritten, rfl⟩, heq⟩
    have heq : text = written ++ '"' :: rest := by simpa using heq
    rw [heq, stringBody_append hwritten]

/-! ## Numbers -/

/-- The text does not begin with a digit. -/
def NoDigit (text : List Char) : Prop := ∀ c ∈ text.head?, c.isDigit = false

/-- The text cannot go on with a number: it does not begin with a digit, a point or the letter of an
exponent. -/
def Stops (text : List Char) : Prop :=
  ∀ c ∈ text.head?, c.isDigit = false ∧ c ≠ '.' ∧ c ≠ 'e' ∧ c ≠ 'E'

theorem Stops.noDigit {text : List Char} (h : Stops text) : NoDigit text := fun c hc => (h c hc).1

theorem Stops.of_cons {c : Char} (h : c.isDigit = false ∧ c ≠ '.' ∧ c ≠ 'e' ∧ c ≠ 'E')
    (text : List Char) : Stops (c :: text) := by
  rintro _ ⟨⟩
  exact h

theorem takeWhile_isDigit_of_noDigit {text : List Char} (h : NoDigit text) :
    text.takeWhile Char.isDigit = [] ∧ text.dropWhile Char.isDigit = text := by
  cases text with
  | nil => exact ⟨rfl, rfl⟩
  | cons c text =>
    have hc : c.isDigit = false := h c rfl
    simp [hc]

theorem digits?_append {digits rest : List Char} (h : IsDigits digits) (hrest : NoDigit rest) :
    digits? (digits ++ rest) = some (digits, rest) := by
  obtain ⟨htake, hdrop⟩ := takeWhile_isDigit_of_noDigit hrest
  rw [digits?, List.span_eq_takeWhile_dropWhile, List.takeWhile_append_of_pos h.2,
    List.dropWhile_append_of_pos h.2, htake, hdrop, List.append_nil]
  obtain ⟨c, digits, rfl⟩ := List.exists_cons_of_ne_nil h.1
  rfl

theorem digits?_of_noDigit {text : List Char} (h : NoDigit text) : digits? text = none := by
  obtain ⟨htake, hdrop⟩ := takeWhile_isDigit_of_noDigit h
  rw [digits?, List.span_eq_takeWhile_dropWhile, htake, hdrop]

theorem digits?_ok {text digits rest : List Char} (h : digits? text = some (digits, rest)) :
    IsDigits digits ∧ text = digits ++ rest := by
  rw [digits?, List.span_eq_takeWhile_dropWhile] at h
  split at h
  · cases h
  · rename_i hne
    obtain ⟨rfl, rfl⟩ := Prod.mk.inj (Option.some.inj h)
    refine ⟨⟨fun hnil => hne _ (by rw [hnil]), fun c hc => List.mem_takeWhile_imp hc⟩, ?_⟩
    exact (List.takeWhile_append_dropWhile).symm

theorem whole?_append {digits rest : List Char} (h : IsWhole digits) (hrest : NoDigit rest) :
    whole? (digits ++ rest) = some (digits, rest) := by
  obtain ⟨c, more, rfl⟩ := List.exists_cons_of_ne_nil h.1.1
  by_cases hc : c = '0'
  · subst hc
    obtain ⟨-, rfl⟩ := List.cons.inj (h.2 rfl)
    rw [List.cons_append, List.nil_append, whole?, digits?_of_noDigit hrest]
  · rw [List.cons_append, whole?, ← List.cons_append, digits?_append h.1 hrest]
    simpa using hc

theorem whole?_ok {text digits rest : List Char} (h : whole? text = some (digits, rest)) :
    IsWhole digits ∧ text = digits ++ rest := by
  unfold whole? at h
  split at h
  · split at h
    · cases h
      exact ⟨⟨⟨by simp, List.forall_mem_singleton.mpr rfl⟩, fun _ => rfl⟩, rfl⟩
    · cases h
  · rename_i hzero
    obtain ⟨hdigits, rfl⟩ := digits?_ok h
    refine ⟨⟨hdigits, fun hhead => ?_⟩, rfl⟩
    obtain ⟨more, rfl⟩ : ∃ more, digits = '0' :: more := by
      obtain ⟨c, more, rfl⟩ := List.exists_cons_of_ne_nil hdigits.1
      exact ⟨more, by simpa using hhead⟩
    exact absurd rfl (hzero (more ++ rest))

theorem fraction?_append {fraction : Option (List Char)} {written rest : List Char}
    (h : WritesFraction fraction written) (hrest : NoDigit rest) (hpoint : rest.head? ≠ some '.') :
    fraction? (written ++ rest) = some (fraction, rest) := by
  cases h with
  | none =>
    rw [List.nil_append, fraction?]
    rintro text rfl
    exact hpoint rfl
  | digits h => rw [List.cons_append, fraction?, digits?_append h hrest, Option.map_some]

theorem fraction?_ok {text rest : List Char} {fraction : Option (List Char)}
    (h : fraction? text = some (fraction, rest)) :
    ∃ written, WritesFraction fraction written ∧ text = written ++ rest := by
  unfold fraction? at h
  split at h
  · obtain ⟨⟨digits, rest'⟩, hdigits, heq⟩ := Option.map_eq_some_iff.mp h
    cases heq
    obtain ⟨hrun, rfl⟩ := digits?_ok hdigits
    exact ⟨_, .digits hrun, rfl⟩
  · cases h
    exact ⟨[], .none, rfl⟩

theorem signedDigits?_append {exponent : Int} {written rest : List Char}
    (h : WritesSigned exponent written) (hrest : NoDigit rest) :
    signedDigits? (written ++ rest) = some (exponent, rest) := by
  cases h with
  | plain h =>
    obtain ⟨c, more, rfl⟩ := List.exists_cons_of_ne_nil h.1
    have hc : c.isDigit = true := h.2 c (.head _)
    rw [List.cons_append, signedDigits?, ← List.cons_append, digits?_append h hrest,
      Option.map_some]
    · rintro _ ⟨⟩
      cases hc
    · rintro _ ⟨⟩
      cases hc
  | plus h => rw [List.cons_append, signedDigits?, digits?_append h hrest, Option.map_some]
  | minus h => rw [List.cons_append, signedDigits?, digits?_append h hrest, Option.map_some]

theorem signedDigits?_ok {text rest : List Char} {exponent : Int}
    (h : signedDigits? text = some (exponent, rest)) :
    ∃ written, WritesSigned exponent written ∧ text = written ++ rest := by
  unfold signedDigits? at h
  split at h <;> obtain ⟨⟨digits, rest'⟩, hdigits, heq⟩ := Option.map_eq_some_iff.mp h <;>
    cases heq <;> obtain ⟨hrun, rfl⟩ := digits?_ok hdigits
  · exact ⟨_, .minus hrun, rfl⟩
  · exact ⟨_, .plus hrun, rfl⟩
  · exact ⟨_, .plain hrun, rfl⟩

theorem exponent?_append {exponent : Option Int} {written rest : List Char}
    (h : WritesExponent exponent written) (hrest : Stops rest) :
    exponent? (written ++ rest) = some (exponent, rest) := by
  cases h with
  | none =>
    rw [List.nil_append, exponent?]
    · rintro text rfl
      exact (hrest 'e' rfl).2.2.1 rfl
    · rintro text rfl
      exact (hrest 'E' rfl).2.2.2 rfl
  | signed hletter h =>
    rcases hletter with rfl | rfl <;>
      rw [List.cons_append, exponent?, signedDigits?_append h hrest.noDigit, Option.map_some]

theorem exponent?_ok {text rest : List Char} {exponent : Option Int}
    (h : exponent? text = some (exponent, rest)) :
    ∃ written, WritesExponent exponent written ∧ text = written ++ rest := by
  unfold exponent? at h
  split at h
  · obtain ⟨⟨e, rest'⟩, hsigned, heq⟩ := Option.map_eq_some_iff.mp h
    cases heq
    obtain ⟨written, hwritten, rfl⟩ := signedDigits?_ok hsigned
    exact ⟨_, .signed (.inl rfl) hwritten, rfl⟩
  · obtain ⟨⟨e, rest'⟩, hsigned, heq⟩ := Option.map_eq_some_iff.mp h
    cases heq
    obtain ⟨written, hwritten, rfl⟩ := signedDigits?_ok hsigned
    exact ⟨_, .signed (.inr rfl) hwritten, rfl⟩
  · cases h
    exact ⟨[], .none, rfl⟩

/-- What an exponent begins with is no digit and no point. -/
theorem WritesExponent.noDigit {exponent : Option Int} {written rest : List Char}
    (h : WritesExponent exponent written) (hrest : Stops rest) :
    NoDigit (written ++ rest) ∧ (written ++ rest).head? ≠ some '.' := by
  cases h with
  | none => exact ⟨hrest.noDigit, fun hpoint => (hrest '.' hpoint).2.1 rfl⟩
  | signed hletter h =>
    rcases hletter with rfl | rfl <;> exact ⟨by rintro _ ⟨⟩; rfl, by simp⟩

theorem WritesFraction.noDigit {fraction : Option (List Char)} {written rest : List Char}
    (h : WritesFraction fraction written) (hrest : NoDigit rest) : NoDigit (written ++ rest) := by
  cases h with
  | none => exact hrest
  | digits => rintro _ ⟨⟩; rfl

theorem sign_append {negative : Bool} {digits rest : List Char} (h : IsDigits digits) :
    sign ((if negative then ['-'] else []) ++ (digits ++ rest)) = (negative, digits ++ rest) := by
  cases negative with
  | true => rfl
  | false =>
    obtain ⟨c, more, rfl⟩ := List.exists_cons_of_ne_nil h.1
    have hc : c.isDigit = true := h.2 c (.head _)
    show sign (c :: (more ++ rest)) = _
    rw [sign]
    · rfl
    · rintro _ ⟨⟩
      cases hc

theorem sign_ok (text : List Char) :
    text = (if (sign text).1 then ['-'] else []) ++ (sign text).2 := by
  unfold sign
  split <;> rfl

/-- What is written as a number is read as it, up to where the number must stop. -/
theorem numeral?_append {n : Numeral} {token rest : List Char} (h : WritesNumber n token)
    (hrest : Stops rest) : numeral? (token ++ rest) = some (n, rest) := by
  obtain ⟨fraction, exponent, hwhole, hfraction, hexponent, rfl⟩ := h
  obtain ⟨hdigit, hpoint⟩ := hexponent.noDigit hrest
  have hsign := @sign_append n.negative n.whole (fraction ++ (exponent ++ rest)) hwhole.1
  unfold numeral?
  simp only [List.append_assoc, hsign, whole?_append hwhole (hfraction.noDigit hdigit),
    fraction?_append hfraction hdigit hpoint, exponent?_append hexponent hrest,
    Option.bind_eq_bind, Option.bind_some]

/-- A token is that of at most one number. -/
theorem WritesNumber.unique {n k : Numeral} {token : Token} (h : WritesNumber n token)
    (h' : WritesNumber k token) : n = k := by
  have hstops : Stops [] := by rintro _ ⟨⟩
  have hread := (numeral?_append h hstops).symm.trans (numeral?_append h' hstops)
  cases hread
  rfl

/-- What is read as a number is written as it. -/
theorem numeral?_ok {text rest : List Char} {n : Numeral} (h : numeral? text = some (n, rest)) :
    ∃ token, WritesNumber n token ∧ text = token ++ rest := by
  simp only [numeral?, Option.bind_eq_bind, Option.bind_eq_some_iff, Prod.exists] at h
  obtain ⟨whole, _, hwhole, fraction, _, hfraction, exponent, _, hexponent, heq⟩ := h
  cases heq
  obtain ⟨hdigits, htext⟩ := whole?_ok hwhole
  obtain ⟨written, hpoint, rfl⟩ := fraction?_ok hfraction
  obtain ⟨written', hletter, rfl⟩ := exponent?_ok hexponent
  refine ⟨_, ⟨written, written', hdigits, hpoint, hletter, rfl⟩, ?_⟩
  calc text = (if (sign text).1 then ['-'] else []) ++ (sign text).2 := sign_ok text
    _ = _ := by simp only [htext, List.append_assoc]

/-! ## Tokens of a layout -/

/-- After the blanks comes the first token of the layout. -/
theorem LaidBefore.skipBlanks {c : Char} {token : Token} {tokens : List Token}
    {rest text : List Char} (h : LaidBefore rest ((c :: token) :: tokens) text)
    (hc : isBlank c = false) :
    ∃ middle, Json.skipBlanks text = c :: (token ++ middle) ∧ LaidBefore rest tokens middle := by
  cases h with
  | cons hblanks h => exact ⟨_, by rw [skipBlanks_append hblanks, List.cons_append,
      skipBlanks_cons hc], h⟩

/-- A token found after the blanks is the first token of a layout. -/
theorem LaidBefore.of_skipBlanks {token : Token} {tokens : List Token}
    {rest middle text : List Char} (h : Json.skipBlanks text = token ++ middle)
    (hrest : LaidBefore rest tokens middle) :
    LaidBefore rest (token :: tokens) text := by
  obtain ⟨blanks, hblanks, htext⟩ := exists_blanks text
  rw [htext, h]
  exact .cons hblanks hrest

/-- A layout that begins with a string. -/
theorem LaidBefore.string {pieces : List Piece} {token : Token} {tokens : List Token}
    {rest text : List Char} (h : LaidBefore rest (token :: tokens) text)
    (htoken : WritesString pieces token) :
    ∃ body middle, Json.skipBlanks text = '"' :: body ∧ stringBody body = some (pieces, middle) ∧
      LaidBefore rest tokens middle := by
  obtain ⟨written, hwritten, rfl⟩ := htoken
  rw [List.cons_append] at h
  obtain ⟨middle, htext, hmiddle⟩ := h.skipBlanks rfl
  rw [List.append_assoc, List.singleton_append] at htext
  exact ⟨_, middle, htext, stringBody_append hwritten middle, hmiddle⟩

/-- A blank ends a number. -/
theorem stops_of_blanks {blanks : List Char} (h : ∀ c ∈ blanks, isBlank c = true)
    {rest : List Char} (hrest : Stops rest) : Stops (blanks ++ rest) := by
  cases blanks with
  | nil => exact hrest
  | cons c blanks =>
    have hc : isBlank c = true := h c (.head _)
    simp only [isBlank, Bool.or_eq_true, decide_eq_true_eq] at hc
    refine Stops.of_cons ?_ _
    rcases hc with ((rfl | rfl) | rfl) | rfl <;> decide

/-- A mark ends a number. -/
theorem LaidBefore.stops {c : Char} {tokens : List Token} {rest text : List Char}
    (h : LaidBefore rest ([c] :: tokens) text)
    (hc : c.isDigit = false ∧ c ≠ '.' ∧ c ≠ 'e' ∧ c ≠ 'E') : Stops text := by
  cases h with
  | cons hblanks h => exact stops_of_blanks hblanks (.of_cons hc _)

/-! ## Keys -/

theorem key?_ok {text rest : List Char} {key : List Piece} (h : key? text = some (key, rest)) :
    ∃ token, WritesString key token ∧ LaidBefore rest [token, [':']] text := by
  unfold key? at h
  split at h
  · rename_i body htext
    simp only [Option.bind_eq_bind, Option.bind_eq_some_iff, Prod.exists] at h
    obtain ⟨pieces, body', hbody, h⟩ := h
    split at h
    · rename_i hcolon
      cases h
      obtain ⟨token, htoken, heq⟩ := writesString_iff.mp hbody
      exact ⟨token, htoken, .of_skipBlanks (htext.trans heq) (.of_skipBlanks hcolon .nil)⟩
    · cases h
  · cases h

theorem key?_of_laid {key : List Piece} {token : Token} {text rest : List Char}
    (hkey : WritesString key token) (h : LaidBefore rest [token, [':']] text) :
    key? text = some (key, rest) := by
  obtain ⟨body, middle, htext, hbody, hcolon⟩ := h.string hkey
  obtain ⟨_, hmiddle, hrest⟩ := hcolon.skipBlanks rfl
  cases hrest
  simp only [key?, htext, hbody, hmiddle, Option.bind_eq_bind, Option.bind_some,
    List.nil_append]

/-! ## What is read is written -/

/-- At the given depth, what is read is written. -/
structure ReadsWritten (depth : Nat) : Prop where
  value : ∀ {text rest : List Char} {v : Json}, value? depth text = some (v, rest) →
    ∃ tokens, Writes v tokens ∧ LaidBefore rest tokens text
  items : ∀ {text rest : List Char} {items : List Json}, items? depth text = some (items, rest) →
    ∃ tokens, WritesItems items tokens ∧ LaidBefore rest (tokens ++ [[']']]) text
  members : ∀ {text rest : List Char} {members : List (List Piece × Json)},
    members? depth text = some (members, rest) →
    ∃ tokens, WritesMembers members tokens ∧ LaidBefore rest (tokens ++ [['\x7d']]) text

theorem word?_ok {word text rest : List Char} (h : word? word text = some rest) :
    text = word ++ rest := by
  unfold word? at h
  split at h
  · rename_i hword
    obtain ⟨rest', rfl⟩ := List.isPrefixOf_iff_prefix.mp hword
    rw [List.drop_left] at h
    rw [Option.some.inj h]
  · cases h

theorem word?_append (word rest : List Char) : word? word (word ++ rest) = some rest := by
  rw [word?, if_pos (List.isPrefixOf_iff_prefix.mpr (List.prefix_append _ _)), List.drop_left]

theorem ReadsWritten.value_succ {depth : Nat} (ih : ReadsWritten depth) {text rest : List Char}
    {v : Json} (h : value? (depth + 1) text = some (v, rest)) :
    ∃ tokens, Writes v tokens ∧ LaidBefore rest tokens text := by
  unfold value? at h
  -- One case for each character that a value can begin with, and the rest for numbers.
  split at h
  case h_1 word htext | h_2 word htext | h_3 word htext =>
    obtain ⟨rest', hword, heq⟩ := Option.map_eq_some_iff.mp h
    cases heq
    rw [word?_ok hword] at htext
    first
    | exact ⟨_, .null, .of_skipBlanks htext .nil⟩
    | exact ⟨_, .yes, .of_skipBlanks htext .nil⟩
    | exact ⟨_, .no, .of_skipBlanks htext .nil⟩
  case h_4 body htext =>
    obtain ⟨⟨pieces, rest'⟩, hbody, heq⟩ := Option.map_eq_some_iff.mp h
    cases heq
    obtain ⟨token, htoken, heq⟩ := writesString_iff.mp hbody
    exact ⟨_, .string htoken, .of_skipBlanks (htext.trans heq) .nil⟩
  case h_5 inner htext =>
    split at h
    · rename_i hclose
      cases h
      exact ⟨_, .noItems, .of_skipBlanks htext (.of_skipBlanks hclose .nil)⟩
    · obtain ⟨⟨items, rest'⟩, hitems, heq⟩ := Option.map_eq_some_iff.mp h
      cases heq
      obtain ⟨tokens, htokens, hlaid⟩ := ih.items hitems
      exact ⟨_, .array htokens, .of_skipBlanks htext hlaid⟩
  case h_6 inner htext =>
    split at h
    · rename_i hclose
      cases h
      exact ⟨_, .noMembers, .of_skipBlanks htext (.of_skipBlanks hclose .nil)⟩
    · obtain ⟨⟨members, rest'⟩, hmembers, heq⟩ := Option.map_eq_some_iff.mp h
      cases heq
      obtain ⟨tokens, htokens, hlaid⟩ := ih.members hmembers
      exact ⟨_, .object htokens, .of_skipBlanks htext hlaid⟩
  case h_7 =>
    obtain ⟨⟨n, rest'⟩, hnumeral, heq⟩ := Option.map_eq_some_iff.mp h
    cases heq
    obtain ⟨token, htoken, htext⟩ := numeral?_ok hnumeral
    exact ⟨_, .number htoken, .of_skipBlanks htext .nil⟩

theorem ReadsWritten.items_succ {depth : Nat} (ih : ReadsWritten depth) {text rest : List Char}
    {items : List Json} (h : items? (depth + 1) text = some (items, rest)) :
    ∃ tokens, WritesItems items tokens ∧ LaidBefore rest (tokens ++ [[']']]) text := by
  unfold items? at h
  split at h
  · cases h
  · rename_i item middle hitem
    obtain ⟨tokens, htokens, hlaid⟩ := ih.value hitem
    split at h
    · rename_i inner hcomma
      obtain ⟨⟨items', rest'⟩, hitems, heq⟩ := Option.map_eq_some_iff.mp h
      cases heq
      obtain ⟨tokens', htokens', hlaid'⟩ := ih.items hitems
      refine ⟨_, .cons htokens htokens', ?_⟩
      rw [List.append_assoc]
      exact hlaid.append (.of_skipBlanks hcomma hlaid')
    · rename_i hclose
      cases h
      exact ⟨_, .last htokens, hlaid.append (.of_skipBlanks hclose .nil)⟩
    · cases h

theorem ReadsWritten.members_succ {depth : Nat} (ih : ReadsWritten depth) {text rest : List Char}
    {members : List (List Piece × Json)} (h : members? (depth + 1) text = some (members, rest)) :
    ∃ tokens, WritesMembers members tokens ∧ LaidBefore rest (tokens ++ [['\x7d']]) text := by
  unfold members? at h
  split at h
  · cases h
  · rename_i key body hkey
    obtain ⟨token, htoken, hkeyLaid⟩ := key?_ok hkey
    split at h
    · cases h
    · rename_i value middle hvalue
      obtain ⟨tokens, htokens, hlaid⟩ := ih.value hvalue
      have hmember : LaidBefore middle (token :: [':'] :: tokens) text := hkeyLaid.append hlaid
      split at h
      · rename_i inner hcomma
        obtain ⟨⟨members', rest'⟩, hmembers, heq⟩ := Option.map_eq_some_iff.mp h
        cases heq
        obtain ⟨tokens', htokens', hlaid'⟩ := ih.members hmembers
        refine ⟨_, .cons htoken htokens htokens', ?_⟩
        rw [List.append_assoc]
        exact hmember.append (.of_skipBlanks hcomma hlaid')
      · rename_i hclose
        cases h
        exact ⟨_, .last htoken htokens, hmember.append (.of_skipBlanks hclose .nil)⟩
      · cases h

theorem readsWritten (depth : Nat) : ReadsWritten depth := by
  induction depth with
  | zero =>
    exact ⟨fun h => by simp [value?] at h, fun h => by simp [items?] at h,
      fun h => by simp [members?] at h⟩
  | succ depth ih => exact ⟨ih.value_succ, ih.items_succ, ih.members_succ⟩

/-! ## What is written is read -/

/-- At the given depth, what is written with few enough tokens is read. -/
structure ReadsBack (depth : Nat) : Prop where
  value : ∀ {text rest : List Char} {v : Json} {tokens : List Token}, Writes v tokens →
    LaidBefore rest tokens text → Stops rest → 2 * tokens.length ≤ depth + 1 →
    value? depth text = some (v, rest)
  items : ∀ {text rest : List Char} {items : List Json} {tokens : List Token},
    WritesItems items tokens → LaidBefore rest (tokens ++ [[']']]) text →
    2 * tokens.length ≤ depth → items? depth text = some (items, rest)
  members : ∀ {text rest : List Char} {members : List (List Piece × Json)} {tokens : List Token},
    WritesMembers members tokens → LaidBefore rest (tokens ++ [['\x7d']]) text →
    2 * tokens.length ≤ depth → members? depth text = some (members, rest)

/-- A number begins with a minus sign or a digit. -/
theorem WritesNumber.head {n : Numeral} {token : Token} (h : WritesNumber n token) :
    ∃ c more, token = c :: more ∧ (c = '-' ∨ c.isDigit = true) := by
  obtain ⟨fraction, exponent, hwhole, -, -, rfl⟩ := h
  obtain ⟨c, more, hdigits⟩ := List.exists_cons_of_ne_nil hwhole.1.1
  cases n.negative with
  | true => exact ⟨'-', _, rfl, .inl rfl⟩
  | false =>
    refine ⟨c, more ++ fraction ++ exponent, by simp [hdigits], .inr (hwhole.1.2 c ?_)⟩
    rw [hdigits]
    exact .head _

/-- A value begins with a token whose first character is no blank and closes no array. -/
theorem Writes.head {v : Json} {tokens : List Token} (h : Writes v tokens) :
    ∃ c token tokens', tokens = (c :: token) :: tokens' ∧ isBlank c = false ∧ c ≠ ']' := by
  cases h with
  | null | yes | no | noItems | noMembers => exact ⟨_, _, _, rfl, rfl, by decide⟩
  | array | object => exact ⟨_, _, _, rfl, rfl, by decide⟩
  | string h =>
    obtain ⟨_, _, rfl⟩ := h
    exact ⟨_, _, _, rfl, rfl, by decide⟩
  | number h =>
    obtain ⟨c, more, rfl, hc⟩ := h.head
    refine ⟨c, more, [], rfl, ?_, ?_⟩
    · rcases hc with rfl | hc
      · rfl
      · by_contra hblank
        simp only [isBlank, Bool.not_eq_false, Bool.or_eq_true, decide_eq_true_eq] at hblank
        rcases hblank with ((rfl | rfl) | rfl) | rfl <;> cases hc
    · rintro rfl
      rcases hc with hc | hc <;> cases hc

theorem WritesItems.head {items : List Json} {tokens : List Token} (h : WritesItems items tokens) :
    ∃ c token tokens', tokens = (c :: token) :: tokens' ∧ isBlank c = false ∧ c ≠ ']' := by
  cases h with
  | last h => exact h.head
  | cons h =>
    obtain ⟨c, token, tokens', rfl, hc⟩ := h.head
    exact ⟨c, token, _, rfl, hc⟩

theorem WritesMembers.head {members : List (List Piece × Json)} {tokens : List Token}
    (h : WritesMembers members tokens) : ∃ token tokens', tokens = ('"' :: token) :: tokens' := by
  cases h with
  | last hkey => obtain ⟨_, _, rfl⟩ := hkey; exact ⟨_, _, rfl⟩
  | cons hkey => obtain ⟨_, _, rfl⟩ := hkey; exact ⟨_, _, rfl⟩

/-- A value that begins as a number is read as one. -/
theorem value?_of_number (depth : Nat) {c : Char} {text more : List Char}
    (htext : skipBlanks text = c :: more) (hc : c = '-' ∨ c.isDigit = true) :
    value? (depth + 1) text =
      (numeral? (c :: more)).map fun (n, rest) => (Json.number n, rest) := by
  rw [value?, htext]
  split <;> first | rfl | (rename_i heq; cases heq; rcases hc with hc | hc <;> cases hc)

theorem ReadsBack.value_succ {depth : Nat} (ih : ReadsBack depth) {text rest : List Char} {v : Json}
    {tokens : List Token} (h : Writes v tokens) (hlaid : LaidBefore rest tokens text)
    (hrest : Stops rest) (hdepth : 2 * tokens.length ≤ depth + 1 + 1) :
    value? (depth + 1) text = some (v, rest) := by
  cases h with
  | null | yes | no =>
    obtain ⟨_, htext, hmiddle⟩ := hlaid.skipBlanks rfl
    cases hmiddle
    simp only [value?, htext, word?_append, Option.map_some]
  | string h =>
    obtain ⟨body, _, htext, hbody, hmiddle⟩ := hlaid.string h
    cases hmiddle
    simp only [value?, htext, hbody, Option.map_some]
  | number h =>
    obtain ⟨c, more, rfl, hc⟩ := h.head
    obtain ⟨d, _, _, heq, hblank, -⟩ := (Writes.number h).head
    cases heq
    obtain ⟨_, htext, hmiddle⟩ := hlaid.skipBlanks hblank
    cases hmiddle
    -- A number is the last thing to be tried, so its first character must start nothing else.
    rw [value?_of_number depth htext hc, ← List.cons_append, numeral?_append h hrest,
      Option.map_some]
  | noItems | noMembers =>
    obtain ⟨middle, htext, hmiddle⟩ := hlaid.skipBlanks rfl
    obtain ⟨_, hclose, hmiddle⟩ := hmiddle.skipBlanks rfl
    cases hmiddle
    rw [List.nil_append] at htext hclose
    simp only [value?, htext, hclose]
  | @array items tokens h =>
    obtain ⟨middle, htext, hmiddle⟩ := hlaid.skipBlanks rfl
    rw [List.nil_append] at htext
    have hitems : items? depth middle = some (items, rest) :=
      ih.items h hmiddle (by simp only [List.length_append, List.length_cons] at hdepth; omega)
    obtain ⟨c, token, tokens', rfl, hblank, hc⟩ := h.head
    obtain ⟨_, hfirst, -⟩ := hmiddle.skipBlanks hblank
    rw [value?, htext]
    simp only
    rw [hfirst]
    -- The first item does not start with the bracket that would close an array without items.
    split
    · rename_i heq
      exact absurd (List.cons.inj heq).1 hc
    · rw [hitems, Option.map_some]
  | @object members tokens h =>
    obtain ⟨middle, htext, hmiddle⟩ := hlaid.skipBlanks rfl
    rw [List.nil_append] at htext
    have hmembers : members? depth middle = some (members, rest) :=
      ih.members h hmiddle (by simp only [List.length_append, List.length_cons] at hdepth; omega)
    obtain ⟨token, tokens', rfl⟩ := h.head
    obtain ⟨_, hfirst, -⟩ := hmiddle.skipBlanks rfl
    rw [value?, htext]
    simp only
    rw [hfirst, hmembers]
    rfl

theorem ReadsBack.items_succ {depth : Nat} (ih : ReadsBack depth) {text rest : List Char}
    {items : List Json} {tokens : List Token} (h : WritesItems items tokens)
    (hlaid : LaidBefore rest (tokens ++ [[']']]) text) (hdepth : 2 * tokens.length ≤ depth + 1) :
    items? (depth + 1) text = some (items, rest) := by
  cases h with
  | last h =>
    obtain ⟨middle, hclose, hitem⟩ := hlaid.split
    have hvalue := ih.value h hitem (hclose.stops (by decide)) hdepth
    obtain ⟨_, hmiddle, hrest⟩ := hclose.skipBlanks rfl
    cases hrest
    simp only [items?, hvalue, hmiddle, List.nil_append]
  | @cons item items tokens tokens' h hrest =>
    rw [List.append_assoc] at hlaid
    obtain ⟨middle, hcomma, hitem⟩ := hlaid.split
    simp only [List.length_append, List.length_cons] at hdepth
    have hvalue := ih.value h hitem (hcomma.stops (by decide)) (by omega)
    obtain ⟨next, hmiddle, hnext⟩ := hcomma.skipBlanks rfl
    have hitems := ih.items hrest hnext (by omega)
    simp only [items?, hvalue, hmiddle, List.nil_append, hitems, Option.map_some]

theorem ReadsBack.members_succ {depth : Nat} (ih : ReadsBack depth) {text rest : List Char}
    {members : List (List Piece × Json)} {tokens : List Token} (h : WritesMembers members tokens)
    (hlaid : LaidBefore rest (tokens ++ [['\x7d']]) text) (hdepth : 2 * tokens.length ≤ depth + 1) :
    members? (depth + 1) text = some (members, rest) := by
  cases h with
  | @last key value token tokens hkey h =>
    obtain ⟨body, hbody, hkeyLaid⟩ := @LaidBefore.split _ _ [token, [':']] _ hlaid
    obtain ⟨middle, hclose, hvalueLaid⟩ := hbody.split
    simp only [List.length_cons] at hdepth
    have hvalue := ih.value h hvalueLaid (hclose.stops (by decide)) (by omega)
    obtain ⟨_, hmiddle, hrest⟩ := hclose.skipBlanks rfl
    cases hrest
    simp only [members?, key?_of_laid hkey hkeyLaid, hvalue, hmiddle, List.nil_append]
  | @cons key value members token tokens tokens' hkey h hrest =>
    rw [List.append_assoc] at hlaid
    obtain ⟨body, hbody, hkeyLaid⟩ := @LaidBefore.split _ _ [token, [':']] _ hlaid
    obtain ⟨middle, hcomma, hvalueLaid⟩ := hbody.split
    simp only [List.length_append, List.length_cons] at hdepth
    have hvalue := ih.value h hvalueLaid (hcomma.stops (by decide)) (by omega)
    obtain ⟨next, hmiddle, hnext⟩ := hcomma.skipBlanks rfl
    have hmembers := ih.members hrest hnext (by omega)
    simp only [members?, key?_of_laid hkey hkeyLaid, hvalue, hmiddle, List.nil_append, hmembers,
      Option.map_some]

theorem readsBack (depth : Nat) : ReadsBack depth := by
  induction depth with
  | zero =>
    refine ⟨fun h _ _ hdepth => ?_, fun h _ hdepth => ?_, fun h _ hdepth => ?_⟩
    · obtain ⟨_, _, _, rfl, -⟩ := h.head
      simp only [List.length_cons] at hdepth
      omega
    · obtain ⟨_, _, _, rfl, -⟩ := h.head
      cases hdepth
    · obtain ⟨_, _, rfl⟩ := h.head
      cases hdepth
  | succ depth ih => exact ⟨ih.value_succ, ih.items_succ, ih.members_succ⟩

/-! ## Texts -/

mutual

theorem Writes.nil_notMem {v : Json} {tokens : List Token} : Writes v tokens → [] ∉ tokens
  | .null | .yes | .no | .noItems | .noMembers => by simp
  | .string ⟨_, _, htoken⟩ => by simp [htoken]
  | .number h => by
    obtain ⟨c, more, rfl, -⟩ := h.head
    simp
  | .array h => by simp [h.nil_notMem]
  | .object h => by simp [h.nil_notMem]

theorem WritesItems.nil_notMem {items : List Json} {tokens : List Token} :
    WritesItems items tokens → [] ∉ tokens
  | .last h => h.nil_notMem
  | .cons h hrest => by simp [h.nil_notMem, hrest.nil_notMem]

theorem WritesMembers.nil_notMem {members : List (List Piece × Json)} {tokens : List Token} :
    WritesMembers members tokens → [] ∉ tokens
  | .last ⟨_, _, htoken⟩ h => by simp [htoken, h.nil_notMem]
  | .cons ⟨_, _, htoken⟩ h hrest => by simp [htoken, h.nil_notMem, hrest.nil_notMem]

end

/-- A layout is at least as long as the number of its tokens. -/
theorem LaidBefore.length_le {rest text : List Char} {tokens : List Token}
    (h : LaidBefore rest tokens text) (htokens : [] ∉ tokens) : tokens.length ≤ text.length := by
  induction h with
  | nil => exact Nat.zero_le _
  | @cons blanks token tokens text _ _ ih =>
    have hlength := ih fun hmem => htokens (.tail _ hmem)
    have htoken : 0 < token.length := List.length_pos_iff.mpr fun hnil => htokens (hnil ▸ .head _)
    simp only [List.length_cons, List.length_append]
    omega

/-- The reader answers with a value exactly on the texts that spell it. -/
theorem read?_eq_some_iff {text : String} {v : Json} :
    read? text.toList = some v ↔ Spells v text := by
  constructor
  · intro h
    unfold read? at h
    split at h
    · rename_i value rest hvalue
      split at h
      · rename_i hend
        cases h
        obtain ⟨tokens, hwrites, hlaid⟩ := (readsWritten _).value hvalue
        have hblanks : ∀ c ∈ rest, isBlank c = true := by
          rw [skipBlanks, List.isEmpty_iff, List.dropWhile_eq_nil_iff] at hend
          exact hend
        exact ⟨tokens, hwrites, rest, hblanks, hlaid⟩
      · cases h
    · cases h
  · rintro ⟨tokens, hwrites, blanks, hblanks, hlaid⟩
    have hstops : Stops blanks := by
      simpa using stops_of_blanks hblanks (show Stops [] by rintro _ ⟨⟩)
    have hlength := hlaid.length_le hwrites.nil_notMem
    rw [read?, (readsBack _).value hwrites hlaid hstops (by omega)]
    have hend : skipBlanks blanks = [] := List.dropWhile_eq_nil_iff.mpr hblanks
    simp only [hend, List.isEmpty_nil, if_pos]

/-- A text spells at most one value. -/
theorem Spells.unique {v w : Json} {text : String} (h : Spells v text) (h' : Spells w text) :
    v = w :=
  Option.some.inj ((read?_eq_some_iff.mpr h).symm.trans (read?_eq_some_iff.mpr h'))

end Cubature.Json
