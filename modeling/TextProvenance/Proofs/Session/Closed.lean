import TextProvenance.Proofs.Session.Keeps
import TextProvenance.Proofs.Text.WellFormed

/-!
# Properties of texts that commands keep

`Text.Closed P` has a clause for every operation that makes or changes a text; the operations that
are only closed under conditions in some uses are left to the user (`Change.Conditional`).  A
session all of whose texts have such a property, and all of whose taint is well formed, is taken by
every other command to a session of the same kind (`Session.Command.keeps_meets`): one case for
every command, maker and change, each put together from the rules of `SessionM.Keeps`.
-/

namespace TextProvenance

/-- Texts with the property have well-formed taint, and what is made of them has the property. -/
structure Text.Closed (P : Text → Prop) : Prop where
  wellFormed : ∀ s, P s → s.WellFormed
  untainted : ∀ value, P { value }
  ofChain : ∀ value c s, Text.ofChain value c = .ok s → P s
  ofTaint : ∀ value t s, t.WellFormed → Text.ofTaint value t = .ok s → P s
  markSource : ∀ (s : Text) start stop c s', s.markSource start stop c = .ok s' → P s'
  substring : ∀ (s : Text) start stop recorder s' recorder', P s →
    s.substring start stop recorder = .ok (s', recorder') → P s'
  concat : ∀ (s other : Text) s', P s → P other → s.concat other = .ok s' → P s'
  mapCharacters : ∀ (s : Text) map name recorder s' recorder', P s →
    s.mapCharacters map name recorder = .ok (s', recorder') → P s'
  split : ∀ (s : Text) separator recorder parts recorder', P s →
    s.split separator recorder = .ok (parts, recorder') → ∀ part ∈ parts, P part
  markArguments : ∀ function sourceInfo arguments recorder, (∀ s ∈ arguments, P s) →
    ∀ marked ∈ (Text.markArguments function sourceInfo arguments recorder).1, P marked
  push : ∀ other, P other → Edit.Keeps P (Text.push other)
  insert : ∀ index other, P other → Edit.Keeps P (Text.insert index other)

/-- A text has the property, and taint is well formed. -/
def Value.Meets (P : Text → Prop) : Value → Prop
  | chain _ => True
  | range _ => True
  | taint t => t.WellFormed
  | text s => P s

namespace Session

open SessionM

variable {P : Text → Prop}

/-! ## Terms -/

theorem OperationTerm.reads_eval (term : OperationTerm) : Reads term.eval := by
  cases term with
  | given operation => exact reads_pure operation
  | made name native arguments =>
    rw [OperationTerm.eval]
    exact reads_recording _

theorem reads_newChain (source : OperationTerm) : Reads (newChain source) :=
  reads_bind source.reads_eval fun _ => reads_recording _

theorem RangeTerm.reads_eval (term : RangeTerm) : Reads term.eval := by
  cases term with
  | named name => exact reads_rangeNamed name
  | along start stop chain => exact reads_bind (reads_chainNamed chain) fun _ => reads_ofFault _
  | fresh start stop source => exact reads_bind (reads_newChain source) fun _ => reads_ofFault _

theorem TaintChange.reads_eval (term : TaintChange) : Reads term.eval := by
  cases term with
  | append range | addRange range => exact reads_bind range.reads_eval fun _ => reads_pure _
  | addTaint other | concat other offset | insert index other =>
    exact reads_bind (reads_taintNamed other) fun _ => reads_pure _
  | set index chain => exact reads_bind (reads_chainNamed chain) fun _ => reads_pure _
  | overlay start stop operation =>
    exact reads_bind operation.reads_eval fun _ => reads_pure _
  | extend operation => exact reads_bind operation.reads_eval fun _ => reads_pure _
  | clearBetween _ _ | clearAt _ | clear | shift _ _ | convertBase _ _ _ => exact reads_pure _

theorem keeps_meets_taintNamed (closed : Text.Closed P) (name : String) :
    Keeps (Value.Meets P) (taintNamed name) Taint.WellFormed := by
  refine keeps_weaken (keeps_taintNamed name) fun t ⟨value, taint, meets⟩ => ?_
  cases value with
  | taint t => exact Option.some.inj taint ▸ meets
  | text s => exact Option.some.inj taint ▸ closed.wellFormed s meets
  | chain _ | range _ => cases taint

theorem keeps_wellFormed_taintOfEntries (entries : List Listing.Entry) :
    Keeps (Value.Meets P) (taintOfEntries entries) Taint.WellFormed := by
  refine keeps_recordingOrFault fun recorder t recorder' ok => ?_
  rcases bind_eq_ok_iff.mp ok with ⟨made, listed, same⟩
  cases same
  exact Taint.wellFormed_of_ofRanges listed

/-! ## Makers -/

theorem Maker.keeps_meets (closed : Text.Closed P) (maker : Maker) :
    Keeps (Value.Meets P) maker.eval (Value.Meets P) := by
  cases maker with
  | chain source => exact keeps_bind (reads_newChain source).keeps fun c _ => keeps_pure trivial
  | chainOf name => exact keeps_bind (keeps_chainNamed name) fun c _ => keeps_pure trivial
  | extendedChain name operation =>
    exact keeps_bind (keeps_chainNamed name) fun c _ =>
      keeps_bind operation.reads_eval.keeps fun operation _ =>
        keeps_bind (reads_recording _).keeps fun c _ => keeps_pure trivial
  | chainOfRange term => exact keeps_bind term.reads_eval.keeps fun r _ => keeps_pure trivial
  | range term => exact keeps_bind term.reads_eval.keeps fun r _ => keeps_pure trivial
  | shiftedRange term amount =>
    exact keeps_bind term.reads_eval.keeps fun r _ =>
      keeps_bind (reads_ofFault _).keeps fun r _ => keeps_pure trivial
  | rangeWithBounds term start stop =>
    exact keeps_bind term.reads_eval.keeps fun r _ =>
      keeps_bind (reads_ofFault _).keeps fun r _ => keeps_pure trivial
  | untainted => exact keeps_pure Taint.wellFormed_untainted
  | taintOf name =>
    exact keeps_bind (keeps_meets_taintNamed closed name) fun t wf => keeps_pure wf
  | taintOfRange term =>
    exact keeps_bind term.reads_eval.keeps fun r _ =>
      keeps_bind (keeps_ofFault (fun _ ok => Taint.wellFormed_of_ofRanges ok)) fun t wf =>
        keeps_pure wf
  | taintOfRanges terms =>
    exact keeps_bind (keeps_mapM fun term _ => term.reads_eval.keeps) fun ranges _ =>
      keeps_bind (keeps_ofFault (fun _ ok => Taint.wellFormed_of_ofRanges ok)) fun t wf =>
        keeps_pure wf
  | taintOfSource start stop source =>
    exact keeps_bind (RangeTerm.fresh start stop source).reads_eval.keeps fun r _ =>
      keeps_bind (keeps_ofFault (fun _ ok => Taint.wellFormed_of_ofRanges ok)) fun t wf =>
        keeps_pure wf
  | taintOfChain name length =>
    exact keeps_bind (RangeTerm.along 0 length name).reads_eval.keeps fun r _ =>
      keeps_bind (keeps_ofFault (fun _ ok => Taint.wellFormed_of_ofRanges ok)) fun t wf =>
        keeps_pure wf
  | listing content =>
    simp only [Maker.eval]
    split
    · exact keeps_bind (keeps_wellFormed_taintOfEntries _) fun t wf => keeps_pure wf
    · exact keeps_throw _
  | listingOrUntainted content =>
    exact keeps_bind (keeps_wellFormed_taintOfEntries _) fun t wf => keeps_pure wf
  | subtaint name start stop =>
    exact keeps_bind (reads_taintNamed name).keeps fun t _ =>
      keeps_bind (keeps_ofFault (fun _ ok => Taint.subtaint_wellFormed ok)) fun t wf =>
        keeps_pure wf
  | concatTaint left leftLength right =>
    exact keeps_bind (keeps_meets_taintNamed closed left) fun left wfLeft =>
      keeps_bind (reads_taintNamed right).keeps fun right _ =>
        keeps_bind (keeps_ofFault (fun _ ok => Text.concatOf_wellFormed wfLeft ok)) fun t wf =>
          keeps_pure wf
  | extendedTaint name operation =>
    refine keeps_bind (reads_taintNamed name).keeps fun t _ => ?_
    refine keeps_bind operation.reads_eval.keeps fun operation _ => ?_
    refine keeps_bind (Q := Taint.WellFormed) ?_ fun t wf => keeps_pure wf
    refine keeps_recordingOrFault fun recorder t' recorder' ok => ?_
    rcases bind_eq_ok_iff.mp ok with ⟨made, extended, same⟩
    cases same
    exact Taint.extended_wellFormed extended
  | text value => exact keeps_pure (closed.untainted value)
  | textOf name => exact keeps_bind (keeps_textNamed name) fun s has => keeps_pure has
  | taintedText value source =>
    exact keeps_bind (reads_newChain source).keeps fun c _ =>
      keeps_bind (keeps_ofFault (closed.ofChain value c)) fun s has => keeps_pure has
  | textWithTaint value name =>
    exact keeps_bind (keeps_meets_taintNamed closed name) fun t wf =>
      keeps_bind (keeps_ofFault fun s ok => closed.ofTaint value t s wf ok) fun s has =>
        keeps_pure has
  | substring name start stop =>
    exact keeps_bind (keeps_textNamed name) fun s has =>
      keeps_bind (keeps_recordingOrFault fun recorder s' recorder' ok =>
        closed.substring s start stop recorder s' recorder' has ok) fun s has => keeps_pure has
  | concatText left right =>
    exact keeps_bind (keeps_textNamed left) fun left hasLeft =>
      keeps_bind (keeps_textNamed right) fun right hasRight =>
        keeps_bind (keeps_ofFault fun s ok => closed.concat left right s hasLeft hasRight ok)
          fun s has => keeps_pure has
  | lower name | upper name =>
    exact keeps_bind (keeps_textNamed name) fun s has =>
      keeps_bind (keeps_recordingOrFault fun recorder s' recorder' ok =>
        closed.mapCharacters s _ _ recorder s' recorder' has ok) fun s has => keeps_pure has

/-! ## Changes and commands -/

/-- The changes that a property of texts need not be closed under: those of taint, those that remove
or replace bytes, and those that copy taint to given positions. -/
def Change.Conditional : Change → Prop
  | taint .. | remove .. | replace .. | copyTaint .. => True
  | _ => False

theorem Change.keeps_meets (closed : Text.Closed P) (name : String) (change : Change)
    (others : change.Conditional → Keeps (Value.Meets P) (change.apply name) fun _ => True) :
    Keeps (Value.Meets P) (change.apply name) fun _ => True := by
  cases change with
  | extendChain operation count =>
    refine keeps_bind operation.reads_eval.keeps fun operation _ => keeps_times ?_ count
    exact keeps_bind (keeps_chainNamed name) fun c _ =>
      keeps_bind (reads_recording _).keeps fun c _ => keeps_assign trivial
  | resizeRange start stop =>
    exact keeps_bind (keeps_rangeNamed name) fun r _ =>
      keeps_bind (reads_ofFault _).keeps fun r _ => keeps_assign trivial
  | extendRange operation =>
    exact keeps_bind operation.reads_eval.keeps fun operation _ =>
      keeps_bind (keeps_rangeNamed name) fun r _ =>
        keeps_bind (reads_recording _).keeps fun c _ => keeps_assign trivial
  | markSource start stop source =>
    exact keeps_bind (reads_newChain source).keeps fun chain _ =>
      keeps_editText (Edit.keeps_step fun s s' _ ok => closed.markSource s start stop chain s' ok)
  | untaint =>
    refine keeps_editText (Edit.keeps_step fun s s' _ ok => ?_)
    cases ok
    exact closed.untainted s.value
  | push other =>
    exact keeps_bind (keeps_textNamed other) fun other has =>
      keeps_editText (closed.push other has)
  | insert index other =>
    exact keeps_bind (keeps_textNamed other) fun other has =>
      keeps_editText (closed.insert index other has)
  | taint _ _ | remove _ _ | replace _ _ _ | copyTaint _ _ _ _ => exact others trivial

theorem Command.keeps_meets (closed : Text.Closed P) (command : Command)
    (others : ∀ name change, command = .change name change → change.Conditional →
      Keeps (Value.Meets P) (change.apply name) fun _ => True) :
    Keeps (Value.Meets P) command.run fun _ => True := by
  cases command with
  | make name maker =>
    exact keeps_bind (maker.keeps_meets closed) fun value meets =>
      keeps_bind (keeps_assign meets) fun _ _ => keeps_pure trivial
  | change name how =>
    exact keeps_bind (how.keeps_meets closed name (others name how rfl)) fun _ _ =>
      keeps_bind (keeps_named name) fun _ _ => keeps_pure trivial
  | look ranges =>
    exact keeps_bind (keeps_mapM fun range _ => range.reads_eval.keeps) fun _ _ =>
      keeps_pure trivial
  | split name separator target =>
    refine keeps_bind (keeps_textNamed name) fun s has => ?_
    refine keeps_bind (keeps_leaving _ (keeps_recordingOrFault fun recorder parts recorder' ok =>
      closed.split s separator recorder parts recorder' has ok)) fun parts meets => ?_
    exact keeps_bind (keeps_nameParts meets 0) fun _ _ => keeps_pure trivial
  | markArguments texts function sourceInfo =>
    refine keeps_bind (keeps_mapM fun name _ => keeps_textNamed name) fun arguments has => ?_
    refine keeps_bind (keeps_recording (Q := fun marked => ∀ s ∈ marked, P s) fun recorder =>
      closed.markArguments function sourceInfo arguments recorder has) fun marked meets => ?_
    refine keeps_bind (keeps_forM fun named mem => ?_) fun _ _ => keeps_pure trivial
    exact keeps_assign (meets named.2 (List.of_mem_zip mem).2)
  | drop name =>
    exact keeps_bind ⟨fun s holds => ⟨holds.unbind name, fun _ _ => trivial⟩⟩
      fun _ (_ : True) => keeps_pure trivial

end Session

end TextProvenance
