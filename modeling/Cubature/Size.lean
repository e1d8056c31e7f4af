import Cubature.Error

/-!
# Counts that must fit the machine

Counts are words of 64 bits, and a table of numbers or references has eight bytes an entry and at
most `2 ^ 63 - 1` bytes.
-/

namespace Cubature.Size

/-- The number of words. -/
def wordCount : Nat := Nat.pow 2 64

/-- A table has fewer entries than this. -/
def tableLimit : Nat := Nat.pow 2 60

/-- The number of values of a signed word that are not negative. -/
def extentLimit : Nat := Nat.pow 2 63

/-- A count, if it is a word. -/
def word (n : Nat) : Except Failure Nat :=
  if n < wordCount then .ok n else .error (.aborted .overflow)

/-- Refuses a table with too many entries. -/
def table (entries : Nat) : Except Failure Unit :=
  if entries < tableLimit then .ok () else .error (.aborted .capacity)

end Cubature.Size
