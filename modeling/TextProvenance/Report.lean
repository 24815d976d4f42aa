import TextProvenance.Operation.Record
import TextProvenance.Taint.Basic

/-!
# Reports

The taint of a text as plain data: for every range its bounds and its history, newest operation
first.  A report knows operations only, not which histories are the same.
-/

namespace TextProvenance

/-- One range with its history. -/
structure RangeReport where
  start : Nat
  stop : Nat
  /-- The operations of the history, newest first. -/
  operations : List Operation
deriving DecidableEq

namespace Operation

/-- An operation as it stands in a report. -/
def reportJson (o : Operation) : Json :=
  .object ([("name", .text o.name), ("arguments", o.argumentsJson)] ++ o.locationField ++
    [("native", .bool o.native)])

end Operation

namespace RangeReport

/-- The report of a range. -/
def ofRange (r : Range) : RangeReport := ⟨r.start, r.stop, r.chain.operations⟩

/-- The operation where the taint entered. -/
def source? (r : RangeReport) : Option Operation := r.operations.getLast?

/-- The report of a range as JSON. -/
def toJson (r : RangeReport) : Json :=
  .object [("begin", .natural r.start), ("end", .natural r.stop),
    ("operations", .array (r.operations.map Operation.reportJson))]

end RangeReport

namespace Taint

/-- The report of every range, in order. -/
def report (t : Taint) : List RangeReport := t.ranges.map RangeReport.ofRange

/-- The report as the text of a JSON array. -/
def reportText (t : Taint) : String := (Json.array (t.report.map RangeReport.toJson)).print

end Taint

end TextProvenance
