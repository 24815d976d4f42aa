import TextProvenance.Chain.Walk
import TextProvenance.Report
import TextProvenance.Proofs.Json.Record
import TextProvenance.Proofs.Taint.Extension

/-!
# Reports of taint

A report has the history of every range as a cursor gives it, and its source is where the loop from
parent to parent ends.  Its text is read back to the operations, so it says as much as the report;
what it does not say is which histories are the same.

`Taint.report_lossless` has both.
-/

namespace TextProvenance

/-! ## Walks -/

namespace Chain

/-- A cursor gives the nodes of a chain.  The induction is on the nodes below the head, since the
cursor goes on with the chain of the next one. -/
theorem nodes_cursor (c : Chain) : c.cursor.nodes = c.nodes := by
  obtain ⟨head, older⟩ := c
  induction older generalizing head with
  | nil =>
    have behind : (⟨none⟩ : Cursor).nodes = [] := by
      rw [Cursor.nodes]
      rfl
    rw [Cursor.nodes]
    exact congrArg (head :: ·) behind
  | cons node rest ih =>
    rw [Cursor.nodes]
    exact congrArg (head :: ·) (ih node)

/-- The loop ends at the node that a cursor gives last. -/
theorem operation_terminal (c : Chain) : c.terminal.operation = c.source := by
  obtain ⟨head, older⟩ := c
  induction older generalizing head with
  | nil =>
    rw [terminal]
    rfl
  | cons node rest ih =>
    rw [terminal]
    exact ih node

end Chain

/-! ## Texts of reports -/

namespace Operation

theorem ofJson?_reportJson (o : Operation) : ofJson? o.reportJson = some o := by
  apply ofJson?_object <;> cases located : o.location <;>
    simp [locationField, located, List.lookup_cons]

theorem plain_reportJson (o : Operation) : o.reportJson.Plain :=
  o.plain_object_locationField (by simp [Json.Plain.text, argumentsJson, Json.plain_array_text])
    (List.forall_mem_singleton.mpr (.bool _))

theorem reportJson_injective : Function.Injective reportJson := fun o o' same =>
  Option.some.inj ((ofJson?_reportJson o).symm.trans ((congrArg ofJson? same).trans
    (ofJson?_reportJson o')))

end Operation

namespace RangeReport

theorem plain_toJson (report : RangeReport) : report.toJson.Plain := by
  have operations : (Json.array (report.operations.map Operation.reportJson)).Plain :=
    .array (List.forall_mem_map.mpr fun o _ => o.plain_reportJson)
  refine .object ?_
  simp [Json.Plain.natural, operations]

theorem toJson_injective : Function.Injective toJson := by
  intro report report' same
  obtain ⟨start, stop, operations⟩ := report
  obtain ⟨start', stop', operations'⟩ := report'
  simp only [toJson, Json.object.injEq, List.cons.injEq, Prod.mk.injEq, Json.natural.injEq,
    Json.array.injEq, true_and, and_true] at same
  obtain ⟨rfl, rfl, listed⟩ := same
  rw [Operation.reportJson_injective.list_map listed]

/-- What a report says of a range: its bounds, the operations that a cursor gives, newest first, and
the source, where the loop from parent to parent ends. -/
structure Describes (report : RangeReport) (r : Range) : Prop where
  bounds : (report.start, report.stop) = r.bounds
  operations : report.operations = r.chain.cursor.nodes.map Node.operation
  source : report.source? = some r.chain.source
  terminal : r.chain.source = r.chain.terminal.operation

theorem describes_ofRange (r : Range) : (ofRange r).Describes r := by
  refine ⟨rfl, ?_, ?_, r.chain.operation_terminal.symm⟩
  · rw [r.chain.nodes_cursor]
    rfl
  · have nonempty : r.chain.nodes ≠ [] := List.cons_ne_nil _ _
    rw [source?, ofRange, Chain.operations, List.getLast?_map,
      List.getLast?_eq_some_getLast nonempty]
    rfl

end RangeReport

namespace Taint

theorem map_bounds_report (t : Taint) :
    (t.report.map fun report => (report.start, report.stop)) = t.ranges.map Range.bounds := by
  rw [report, List.map_map]
  rfl

theorem map_operations_report (t : Taint) :
    t.report.map RangeReport.operations = t.chains.map Chain.operations := by
  rw [report, chains, List.map_map, List.map_map]
  rfl

/-- A report is made of the bounds of the ranges and of their operations. -/
theorem report_eq_zipWith (t : Taint) :
    t.report = List.zipWith (fun bounds operations => ⟨bounds.1, bounds.2, operations⟩)
      (t.ranges.map Range.bounds) (t.chains.map Chain.operations) := by
  rw [← map_bounds_report, ← map_operations_report, List.zipWith_map, List.zipWith_self]
  exact (List.map_id _).symm

theorem report_inj (t u : Taint) : t.report = u.report ↔
    t.ranges.map Range.bounds = u.ranges.map Range.bounds ∧
      t.chains.map Chain.operations = u.chains.map Chain.operations := by
  refine ⟨fun same => ?_, fun same => ?_⟩
  · rw [← map_bounds_report, ← map_operations_report, same]
    exact ⟨u.map_bounds_report, u.map_operations_report⟩
  · obtain ⟨sameBounds, sameOperations⟩ := same
    rw [t.report_eq_zipWith, sameBounds, sameOperations, ← u.report_eq_zipWith]

theorem plain_report (t : Taint) : (Json.array (t.report.map RangeReport.toJson)).Plain :=
  .array (List.forall_mem_map.mpr fun report _ => report.plain_toJson)

theorem reportText_inj (t u : Taint) : t.reportText = u.reportText ↔ t.report = u.report := by
  refine ⟨fun same => ?_, fun same => by rw [reportText, reportText, same]⟩
  have values := Json.print_inj t.plain_report u.plain_report same
  exact RangeReport.toJson_injective.list_map (Json.array.inj values)

/-- **Reports lose nothing but identity.**  There is one report for each range, in order, with its
bounds, the operations of its history, newest first, and its source.  The texts of two reports are
the same exactly if the ranges have the same bounds and the same lists of operations, each with its
name, arguments, location and whether it is native; whether histories are the same chain is lost. -/
theorem report_lossless (t u : Taint) :
    List.Forall₂ RangeReport.Describes t.report t.ranges ∧
      (t.reportText = u.reportText ↔
        t.ranges.map Range.bounds = u.ranges.map Range.bounds ∧
          t.chains.map Chain.operations = u.chains.map Chain.operations) := by
  refine ⟨?_, (reportText_inj t u).trans (report_inj t u)⟩
  rw [report, List.forall₂_map_left_iff, List.forall₂_same]
  exact fun r _ => RangeReport.describes_ofRange r

end Taint

end TextProvenance
