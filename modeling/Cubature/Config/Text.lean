import Cubature.Config.Basic
import Cubature.Json.Reader

/-!
# Configuration files

A configuration is stored as a JSON object with a member for each limit. Members may be missing and
come in any order, and members with other keys are skipped; a known key must not come twice. Keys
are compared decoded, so every key of the object must have a decoding, but what is skipped after one
is not decoded. An array with the first few limits in the order of their members is read as well.

* `Config.ofText`: reads and validates a text.
* `Config.text`: the text that is written.
* `Config.load`, `Config.save`: the same over the bytes of a file.
-/

namespace Cubature.Config

/-- The key of the largest order. -/
def maxOrderKey : String := "max_order"

/-- The key of the tolerance. -/
def toleranceKey : String := "newton_tolerance"

/-- The key of the iteration limit. -/
def iterationsKey : String := "max_newton_iterations"

/-- The value of a count. -/
def count? : Json → Option Nat
  | .number n => n.toWord?
  | _ => none

/-- The value of a tolerance. -/
def tolerance? : Json → Option Float
  | .number n => n.toFloat?
  | _ => none

/-- The members under their decoded keys. All keys must have a decoding, those of skipped members as
well. -/
def decodeKeys? (members : List (List Json.Piece × Json)) : Option (List (String × Json)) :=
  members.mapM fun (key, v) => (Json.decode? key).map fun key => (String.ofList key, v)

/-- The value of the member with the given key, or `missing` if there is none. A second member with
the key is refused. -/
def member? {β : Type} (members : List (String × Json)) (key : String) (missing : β)
    (value? : Json → Option β) : Option β :=
  match members.filter fun m => m.1 == key with
  | [] => some missing
  | [(_, v)] => value? v
  | _ => none

/-- The value of an item, or `missing` if the array ends before it. -/
def item? {β : Type} (items : List Json) (position : Nat) (missing : β)
    (value? : Json → Option β) : Option β :=
  match items[position]? with
  | none => some missing
  | some v => value? v

/-- The limits that the members of an object hold. -/
def ofMembers? (members : List (String × Json)) : Option Config := do
  let maxOrder ← member? members maxOrderKey standard.maxOrder count?
  let newtonTolerance ← member? members toleranceKey standard.newtonTolerance tolerance?
  let maxNewtonIterations ← member? members iterationsKey standard.maxNewtonIterations count?
  some { maxOrder, newtonTolerance, maxNewtonIterations }

/-- The limits that a JSON value holds. -/
def ofJson? : Json → Option Config
  | .object members => (decodeKeys? members).bind ofMembers?
  | .array items =>
    if 3 < items.length then none
    else do
      let maxOrder ← item? items 0 standard.maxOrder count?
      let newtonTolerance ← item? items 1 standard.newtonTolerance tolerance?
      let maxNewtonIterations ← item? items 2 standard.maxNewtonIterations count?
      some { maxOrder, newtonTolerance, maxNewtonIterations }
  | _ => none

/-- The limits that a text holds, which must be usable (`from_json`). -/
def ofText (text : String) : Except Failure Config :=
  match (Json.read? text.toList).bind ofJson? with
  | none => .error (.rejected (.config .malformed))
  | some c => c.validate.map fun _ => c

/-- A line with one member. -/
def line (key : String) (value : List Char) : List Char :=
  ' ' :: ' ' :: '"' :: key.toList ++ '"' :: ':' :: ' ' :: value

/-- The characters of the stored text: a member on each line, indented by two. -/
def chars (c : Config) : List Char :=
  '\x7b' :: '\n' :: line maxOrderKey (Nat.toDigits 10 c.maxOrder)
    ++ ',' :: '\n' :: line toleranceKey (Decimal.Layout.data.render c.newtonTolerance)
    ++ ',' :: '\n' :: line iterationsKey (Nat.toDigits 10 c.maxNewtonIterations)
    ++ ['\n', '\x7d']

/-- The stored text. -/
def text (c : Config) : String := String.ofList c.chars

/-- Stores a configuration and returns the bytes of its file (`to_file`). `store` tells whether the
bytes could be written. -/
def save (c : Config) (store : ByteArray → Bool) : Except Failure ByteArray :=
  let bytes := c.text.toUTF8
  if store bytes then .ok bytes else .error (.rejected (.config .unwritable))

/-- The configuration in a file (`from_file`). There are no bytes if there is no file. -/
def load : Option ByteArray → Except Failure Config
  | none => .error (.rejected (.config .unreadable))
  | some bytes =>
    match String.fromUTF8? bytes with
    | none => .error (.rejected (.config .unreadable))
    | some text => ofText text

end Cubature.Config
