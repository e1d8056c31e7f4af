import Cubature.Json.Reader
import Mathlib.Data.List.Basic

/-!
# The grammar of JSON

Which texts are JSON, said without a reader: a value is written as a sequence of tokens
(`Json.Writes`), and a text is a layout of tokens if it has them in order, with any blanks before,
between and after them (`Json.Layout`). `Json.Spells` puts the two together.

A number is written with its digits as they are, and a string or a key with any of the ways to write
its pieces, so that a value has many texts. Nothing here decodes a string or a key.
-/

namespace Cubature.Json

/-! ## Strings -/

/-- Between its quotes, a string is written by characters that need no escape, by escaped ones, and
by units of four hexadecimal digits. -/
inductive WritesPieces : List Piece → List Char → Prop where
  | nil : WritesPieces [] []
  | plain {c : Char} {pieces : List Piece} {text : List Char} (hquote : c ≠ '"')
    (hescape : c ≠ '\\') (hcontrol : 0x20 ≤ c.toNat) (h : WritesPieces pieces text) :
    WritesPieces (.char c :: pieces) (c :: text)
  | escape {letter c : Char} {pieces : List Piece} {text : List Char}
    (hletter : escaped? letter = some c) (h : WritesPieces pieces text) :
    WritesPieces (.char c :: pieces) ('\\' :: letter :: text)
  | unit {a b c d : Char} {code : Nat} {pieces : List Piece} {text : List Char}
    (hunit : unit? a b c d = some code) (h : WritesPieces pieces text) :
    WritesPieces (.unit code :: pieces) ('\\' :: 'u' :: a :: b :: c :: d :: text)

/-- A token: a string, a number, a word or a mark. -/
abbrev Token := List Char

/-- The token of a string or a key. -/
def WritesString (pieces : List Piece) (token : Token) : Prop :=
  ∃ text, WritesPieces pieces text ∧ token = '"' :: text ++ ['"']

/-! ## Numbers -/

/-- A run of digits that is not empty. -/
def IsDigits (digits : List Char) : Prop := digits ≠ [] ∧ ∀ c ∈ digits, c.isDigit = true

/-- The digits before the point. Only zero itself starts with a zero. -/
def IsWhole (digits : List Char) : Prop :=
  IsDigits digits ∧ (digits.head? = some '0' → digits = ['0'])

/-- A point with digits, or nothing. -/
inductive WritesFraction : Option (List Char) → List Char → Prop where
  | none : WritesFraction none []
  | digits {digits : List Char} (h : IsDigits digits) : WritesFraction (some digits) ('.' :: digits)

/-- A sign, or nothing, with digits. -/
inductive WritesSigned : Int → List Char → Prop where
  | plain {digits : List Char} (h : IsDigits digits) : WritesSigned (naturalOf digits) digits
  | plus {digits : List Char} (h : IsDigits digits) :
    WritesSigned (naturalOf digits) ('+' :: digits)
  | minus {digits : List Char} (h : IsDigits digits) :
    WritesSigned (-(naturalOf digits : Int)) ('-' :: digits)

/-- An exponent after its letter, or nothing. -/
inductive WritesExponent : Option Int → List Char → Prop where
  | none : WritesExponent none []
  | signed {letter : Char} {exponent : Int} {text : List Char}
    (hletter : letter = 'e' ∨ letter = 'E')
    (h : WritesSigned exponent text) : WritesExponent (some exponent) (letter :: text)

/-- The token of a number. -/
def WritesNumber (n : Numeral) (token : Token) : Prop :=
  ∃ fraction exponent, IsWhole n.whole ∧ WritesFraction n.fraction fraction ∧
    WritesExponent n.exponent exponent ∧
    token = (if n.negative then ['-'] else []) ++ n.whole ++ fraction ++ exponent

/-! ## Values -/

mutual

/-- The tokens of a value. -/
inductive Writes : Json → List Token → Prop where
  | null : Writes .null [['n', 'u', 'l', 'l']]
  | yes : Writes (.bool true) [['t', 'r', 'u', 'e']]
  | no : Writes (.bool false) [['f', 'a', 'l', 's', 'e']]
  | string {pieces : List Piece} {token : Token} (h : WritesString pieces token) :
    Writes (.string pieces) [token]
  | number {n : Numeral} {token : Token} (h : WritesNumber n token) : Writes (.number n) [token]
  | noItems : Writes (.array []) [['['], [']']]
  | array {items : List Json} {tokens : List Token} (h : WritesItems items tokens) :
    Writes (.array items) (['['] :: tokens ++ [[']']])
  | noMembers : Writes (.object []) [['\x7b'], ['\x7d']]
  | object {members : List (List Piece × Json)} {tokens : List Token}
    (h : WritesMembers members tokens) :
    Writes (.object members) (['\x7b'] :: tokens ++ [['\x7d']])

/-- The tokens of the items of an array that has some. -/
inductive WritesItems : List Json → List Token → Prop where
  | last {item : Json} {tokens : List Token} (h : Writes item tokens) : WritesItems [item] tokens
  | cons {item : Json} {items : List Json} {tokens rest : List Token} (h : Writes item tokens)
    (hrest : WritesItems items rest) : WritesItems (item :: items) (tokens ++ [','] :: rest)

/-- The tokens of the members of an object that has some. -/
inductive WritesMembers : List (List Piece × Json) → List Token → Prop where
  | last {key : List Piece} {value : Json} {token : Token} {tokens : List Token}
    (hkey : WritesString key token) (h : Writes value tokens) :
    WritesMembers [(key, value)] (token :: [':'] :: tokens)
  | cons {key : List Piece} {value : Json} {members : List (List Piece × Json)} {token : Token}
    {tokens rest : List Token} (hkey : WritesString key token) (h : Writes value tokens)
    (hrest : WritesMembers members rest) :
    WritesMembers ((key, value) :: members) (token :: [':'] :: tokens ++ [','] :: rest)

end

/-! ## Layouts -/

/-- The text goes on with the tokens, each after any number of blanks, and then with `rest`. -/
inductive LaidBefore (rest : List Char) : List Token → List Char → Prop where
  | nil : LaidBefore rest [] rest
  | cons {blanks : List Char} {token : Token} {tokens : List Token} {text : List Char}
    (hblanks : ∀ c ∈ blanks, isBlank c = true) (h : LaidBefore rest tokens text) :
    LaidBefore rest (token :: tokens) (blanks ++ (token ++ text))

/-- A text that consists of the tokens, with any blanks around them. -/
def Layout (tokens : List Token) (text : List Char) : Prop :=
  ∃ blanks, (∀ c ∈ blanks, isBlank c = true) ∧ LaidBefore blanks tokens text

/-- The text is one of the texts of the value. -/
def Spells (v : Json) (text : String) : Prop :=
  ∃ tokens, Writes v tokens ∧ Layout tokens text.toList

/-- Tokens after tokens. -/
theorem LaidBefore.append {rest middle text : List Char} {tokens tokens' : List Token}
    (h : LaidBefore middle tokens text) (h' : LaidBefore rest tokens' middle) :
    LaidBefore rest (tokens ++ tokens') text := by
  induction h with
  | nil => exact h'
  | cons hblanks _ ih => exact .cons hblanks ih

/-- A layout can be split between any two tokens. -/
theorem LaidBefore.split {rest text : List Char} {tokens tokens' : List Token}
    (h : LaidBefore rest (tokens ++ tokens') text) :
    ∃ middle, LaidBefore rest tokens' middle ∧ LaidBefore middle tokens text := by
  induction tokens generalizing text with
  | nil => exact ⟨text, h, .nil⟩
  | cons token tokens ih =>
    cases h with
    | cons hblanks h =>
      obtain ⟨middle, hrest, hfirst⟩ := ih h
      exact ⟨middle, hrest, .cons hblanks hfirst⟩

end Cubature.Json
