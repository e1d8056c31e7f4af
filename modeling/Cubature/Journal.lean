import Cubature.Event

/-!
# Shared values and the journal

Rules are shared: two requests can be answered by one and the same rule, and two rules with equal
contents can still be different ones. A shared value carries the number it was issued under, and
the journal hands out the numbers and records the reports.
-/

namespace Cubature

/-- A value that is told apart from equal values by the number it was issued under. -/
structure Shared (β : Type) where
  id : Nat
  value : β

/-- Whether two shared values are one and the same. -/
def Shared.isSame {β : Type} (a b : Shared β) : Bool := a.id == b.id

/-- The next number to issue and the reports so far, the oldest first. -/
structure Journal where
  nextId : Nat := 0
  log : Array Event := #[]

namespace Journal

/-- Adds a report. -/
def report (j : Journal) (e : Event) : Journal := { j with log := j.log.push e }

/-- Adds reports in order. -/
def reportAll (j : Journal) (events : List Event) : Journal :=
  { j with log := j.log ++ events.toArray }

/-- Shares a value under a number that was not issued before. -/
def issue {β : Type} (j : Journal) (value : β) : Shared β × Journal :=
  (⟨j.nextId, value⟩, { j with nextId := j.nextId + 1 })

end Journal

end Cubature
