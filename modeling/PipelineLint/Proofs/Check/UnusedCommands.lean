import PipelineLint.Concrete.Host
import PipelineLint.Proofs.Check.Unused
import PipelineLint.Proofs.NameMap

/-! # Unused commands of local orbs

A command of a local orb is needed where a step in the orb invokes it by its name, or where a step in the document
around the orb, or in another orb of that document, invokes it by the name of the orb and its own. The check looks for
both names among all steps of the orb and of the document. So it does not see the other orbs, and steps of another kind
and names that mean something else pass for uses.
-/

namespace PipelineLint

namespace Check

open Step

/-- A name means a command of a local orb of a document: it leads into no unknown orb, what is looked through before the
document defines nothing of the name, and the document has nothing of its own under it. -/
structure LeadsToCommand (t : Scope) (d : Document) (name : String) (o : LocalOrb) (command : String) : Prop where
  split : splitOrbName name = some (o.name, command)
  known : t.isFromUnknownOrb name = false
  before : ∃ docs rest, t.documents = docs ++ d :: rest ∧ ∀ e ∈ docs, e.definedParameters? t.caches name = none
  own : d.jobs.get? name = none ∧ d.commands.get? name = none
  declared : ∃ use, d.orbs.get? o.name = some use ∧ use.url.isLocal = true
  body : LocalOrb.find? d.localOrbs o.name = some o
  defines : (o.document.commands.get? command).isSome = true

/-- A name that means a command is checked against the parameters of that command. -/
theorem LeadsToCommand.definedParameters? {t : Scope} {d : Document} {name command : String} {o : LocalOrb}
    (h : LeadsToCommand t d name o command) :
    t.definedParameters? name = (o.document.commands.get? command).map (·.parameters) := by
  obtain ⟨docs, rest, hdocuments, hnone⟩ := h.before
  obtain ⟨use, hget, hlocal⟩ := h.declared
  obtain ⟨c, hc⟩ := Option.isSome_iff_exists.mp h.defines
  have hinfo : d.orbInfo? t.caches o.name = some { o.document.toOrbInfo o.name "" with isLocal := true } := by
    simp [Document.orbInfo?, hget, hlocal, Document.localOrbInfo?, h.body]
  have hfound : d.definedParameters? t.caches name = some c.parameters := by
    simp [Document.definedParameters?, h.own.1, h.own.2, h.split, hinfo, OrbInfo.parametersOf?, Document.toOrbInfo, hc]
  rw [Scope.definedParameters?, hdocuments, List.findSome?_append, List.findSome?_eq_none_iff.mpr hnone]
  simp [hfound, hc]

namespace OrbCommand

def StandsInBody (o : LocalOrb) (st : Step) : Prop :=
  ∃ sts ∈ commandSteps o.document ++ jobSteps o.document, Among st sts

def outsideName (o : LocalOrb) (command : String) : String := o.name ++ "/" ++ command

variable (s : Scope) (o : LocalOrb) (command : String)

def UsedInside : Prop := ∃ st, StandsInBody o st ∧ invokes command st = true

/-- A step in the document around the orb invokes the command. -/
def UsedOutside : Prop :=
  ∃ st, StandsIn s.document st ∧ invokes (outsideName o command) st = true ∧
    LeadsToCommand s s.document (outsideName o command) o command

/-- A step in another orb of the document invokes the command. -/
def UsedByOther : Prop :=
  ∃ other ∈ s.document.localOrbs, other.name ≠ o.name ∧ ∃ st, StandsInBody other st ∧
    invokes (outsideName o command) st = true ∧
    LeadsToCommand (s.inOrb other) s.document (outsideName o command) o command

/-- A step has the name of the command, in the orb or outside, and does not invoke it: the step invokes nothing, or what
the name means outside is something else. -/
def Mistaken : Prop :=
  (∃ st, StandsInBody o st ∧ st.name = command ∧ ∀ call, st ≠ .named call) ∨
    ∃ st, StandsIn s.document st ∧ st.name = outsideName o command ∧
      ((∀ call, st ≠ .named call) ∨ ¬LeadsToCommand s s.document (outsideName o command) o command)

def Needed : Prop := UsedInside o command ∨ UsedOutside s o command ∨ UsedByOther s o command

variable {s o command}

theorem name_eq_iff {name : String} {st : Step} :
    st.name = name ↔ invokes name st = true ∨ st.name = name ∧ ∀ call, st ≠ .named call := by
  rw [invokes_eq_true_iff, ← and_or_left]
  by_cases hcall : ∃ call, st = .named call
  · simp [hcall]
  · simp [not_exists.mp hcall]

theorem any_body_iff : (commandSteps o.document ++ jobSteps o.document).any (anyStep (·.name == command)) = true ↔
    ∃ st, StandsInBody o st ∧ st.name = command := by
  simp only [any_anyStep_iff, beq_iff_eq, StandsInBody]

theorem any_outside_iff {d : Document} {name : String} :
    (commandSteps d ++ jobSteps d ++ aroundSteps d).any (anyStep (·.name == name)) = true ↔
      ∃ st, StandsIn d st ∧ st.name = name := by
  simp only [any_anyStep_iff, beq_iff_eq, StandsIn, ownSteps, List.mem_append, or_comm (a := _ ∈ commandSteps d)]

theorem isOrbCommandUsed_iff : isOrbCommandUsed ⟨o.name, s.document⟩ o.document command = true ↔
    UsedInside o command ∨ UsedOutside s o command ∨ Mistaken s o command := by
  have hinside : (∃ st, StandsInBody o st ∧ st.name = command) ↔
      UsedInside o command ∨ ∃ st, StandsInBody o st ∧ st.name = command ∧ ∀ call, st ≠ .named call := by
    rw [UsedInside, ← exists_or]
    exact exists_congr fun st => by rw [← and_or_left, ← name_eq_iff]
  have houtside : (∃ st, StandsIn s.document st ∧ st.name = outsideName o command) ↔
      UsedOutside s o command ∨ ∃ st, StandsIn s.document st ∧ st.name = outsideName o command ∧
        ((∀ call, st ≠ .named call) ∨ ¬LeadsToCommand s s.document (outsideName o command) o command) := by
    rw [UsedOutside, ← exists_or]
    refine exists_congr fun st => ?_
    rw [← and_or_left]
    refine and_congr_right fun _ => ?_
    by_cases hleads : LeadsToCommand s s.document (outsideName o command) o command
    · simpa [hleads] using name_eq_iff
    · simp [hleads]
  rw [isOrbCommandUsed, Bool.or_eq_true, any_body_iff, any_outside_iff, ← outsideName, hinside, houtside, Mistaken]
  grind

/-- The check is right about a command just if nothing is mistaken for a use of one that is not needed, and a command
that only other orbs use is mistaken for a used one. -/
theorem isOrbCommandUsed_iff_needed_iff :
    (isOrbCommandUsed ⟨o.name, s.document⟩ o.document command = true ↔ Needed s o command) ↔
      UsedInside o command ∨ UsedOutside s o command ∨ (Mistaken s o command ↔ UsedByOther s o command) := by
  rw [isOrbCommandUsed_iff, Needed]
  grind

/-- The warning about a command that nothing uses. -/
def unusedWarning (c : Command) : Diagnostic := unused .warning "Command is unused" c.nameRange

def unusedIn (d : Document) (o : LocalOrb) : List Command :=
  o.document.commands.values.filter fun c => !isOrbCommandUsed ⟨o.name, d⟩ o.document c.name

/-- Of the warnings about unused things those about commands are one for each command of a local orb for which no use is
found. The commands of the document have none. -/
theorem filter_unusedWarnings (henclosing : s.enclosing = none) :
    (unusedWarnings s).filter (isUnusedAs "Command is unused") =
      if s.settings.findsUnused then
        s.document.localOrbs.flatMap fun o => (unusedIn s.document o).map unusedWarning
      else [] := by
  have hanchors : (findings (anchors s)).filter (isUnusedAs "Command is unused") = [] :=
    filter_anchors_eq_nil (by decide)
  have hjobs (t : Scope) (j : Job) : (unusedJob t j).filter (isUnusedAs "Command is unused") = [] := by
    unfold unusedJob
    split <;> simp
  have horbs (use : OrbUse) : (unusedOrb s use).filter (isUnusedAs "Command is unused") = [] := by
    unfold unusedOrb
    split <;> simp
  have hown (c : Command) : unusedCommand s c = [] := by simp [unusedCommand, henclosing]
  have hbodies (o : LocalOrb) (c : Command) : (unusedCommand (s.inOrb o) c).filter (isUnusedAs "Command is unused") =
      if s.settings.findsUnused && !isOrbCommandUsed ⟨o.name, s.document⟩ o.document c.name then [unusedWarning c]
      else [] := by
    simp only [unusedCommand, Scope.inOrb]
    split <;> simp_all [unusedWarning]
  have hbody (o : LocalOrb) : (o.document.commands.values.flatMap fun c =>
      (unusedCommand (s.inOrb o) c).filter (isUnusedAs "Command is unused")) =
      if s.settings.findsUnused then (unusedIn s.document o).map unusedWarning else [] := by
    simp only [hbodies]
    exact flatMap_ite_singleton _ _ _ _
  have hnone {α β : Type} (xs : List α) : (xs.flatMap fun _ => []) = ([] : List β) := by simp
  simp only [unusedWarnings, List.filter_append, List.filter_flatMap, hanchors, hjobs, horbs, hown, hbody,
    List.filter_nil, hnone, List.nil_append]
  cases s.settings.findsUnused <;> simp

def scopeOf? (source : String) : Option Scope :=
  (Document.parse .strict source.toList).toOption.map fun d => { settings := {}, caches := {}, failures := ∅, document := d }

/-- A configuration with two local orbs, of which the second one invokes a command of the first one. -/
def neighbours : String :=
  "orbs:\n  tools:\n    commands:\n      greet:\n        steps:\n          - checkout\n" ++
    "  more:\n    commands:\n      wave:\n        steps:\n          - tools/greet\n"

/-- In another orb of a document the name of a command means that command. -/
def isMeantIn (s : Scope) (other o : LocalOrb) (command : String) : Bool :=
  let name := outsideName o command
  splitOrbName name == some (o.name, command) && !(s.inOrb other).isFromUnknownOrb name &&
    (other.document.definedParameters? s.caches name).isNone &&
    (s.document.jobs.get? name).isNone && (s.document.commands.get? name).isNone &&
    (s.document.orbs.get? o.name).any (·.url.isLocal) && (o.document.commands.get? command).isSome

private theorem leadsToCommand_of_isMeantIn {other : LocalOrb}
    (hbody : LocalOrb.find? s.document.localOrbs o.name = some o)
    (h : isMeantIn s other o command = true) :
    LeadsToCommand (s.inOrb other) s.document (outsideName o command) o command := by
  simp only [isMeantIn, Bool.and_eq_true, beq_iff_eq, Bool.not_eq_true', Option.isNone_iff_eq_none,
    Option.any_eq_true] at h
  obtain ⟨⟨⟨⟨⟨⟨hsplit, hknown⟩, hbefore⟩, hjobs⟩, hcommands⟩, hdeclared⟩, hdefines⟩ := h
  exact ⟨hsplit, hknown, ⟨[other.document], [], rfl, by simpa [Scope.inOrb] using hbefore⟩, ⟨hjobs, hcommands⟩, hdeclared,
    hbody, hdefines⟩

/-- A configuration with a local orb in which a step that runs a shell command bears the name of a command. -/
def namesake : String :=
  "orbs:\n  tools:\n    commands:\n      greet:\n        steps:\n          - run: {name: greet, command: make}\n"

private theorem not_needed_of_any
    (hbody : (commandSteps o.document ++ jobSteps o.document).any (anyStep (invokes command)) = false)
    (hown : (ownSteps s.document).any (anyStep (invokes (outsideName o command))) = false)
    (halone : s.document.localOrbs.all (·.name == o.name) = true) : ¬Needed s o command := by
  rintro (hinside | ⟨st, hst, hinvokes, -⟩ | ⟨other, hother, hne, -⟩)
  · exact Bool.eq_false_iff.mp hbody (any_anyStep_iff.mpr hinside)
  · exact Bool.eq_false_iff.mp hown (any_anyStep_iff.mpr ⟨st, hst, hinvokes⟩)
  · exact hne (by simpa using List.all_eq_true.mp halone other hother)

/-- A command that only another orb invokes is needed and said to be unused. One that nothing invokes passes for used
where a step that runs a shell command bears its name. -/
theorem localOrb_commands_misjudged :
    (∃ s, scopeOf? neighbours = some s ∧ ∃ o ∈ s.document.localOrbs, ∃ c ∈ o.document.commands.values,
      Needed s o c.name ∧ unusedWarning c ∈ findings (document .standard none s)) ∧
    ∃ s, scopeOf? namesake = some s ∧ ∃ o ∈ s.document.localOrbs, ∃ c ∈ o.document.commands.values,
      ¬Needed s o c.name ∧ (findings (document .standard none s)).filter (isUnusedAs "Command is unused") = [] := by
  constructor
  · have hcheck : (scopeOf? neighbours).any (fun s => (LocalOrb.find? s.document.localOrbs "tools").any fun o =>
        (LocalOrb.find? s.document.localOrbs "more").any fun other => (o.document.commands.get? "greet").any fun c =>
          (commandSteps other.document ++ jobSteps other.document).any (anyStep (invokes (outsideName o c.name))) &&
            isMeantIn s other o c.name && decide (unusedWarning c ∈ findings (document .standard none s))) = true := by
      decide +kernel
    simp only [Option.any_eq_true, Bool.and_eq_true, decide_eq_true_eq] at hcheck
    obtain ⟨s, hs, o, ho, other, hother, c, hc, ⟨hsteps, hmeant⟩, hfound⟩ := hcheck
    have hname : o.name = "tools" := by simpa using List.find?_some ho
    have hne : other.name ≠ o.name := by
      have hmore : other.name = "more" := by simpa using List.find?_some hother
      simp [hmore, hname]
    obtain ⟨st, hst, hinvokes⟩ := any_anyStep_iff.mp hsteps
    have hleads := leadsToCommand_of_isMeantIn (by rwa [hname]) hmeant
    exact ⟨s, hs, o, List.mem_of_find?_eq_some ho, c, NameMap.mem_values_of_get? hc,
      .inr (.inr ⟨other, List.mem_of_find?_eq_some hother, hne, st, hst, hinvokes, hleads⟩), hfound⟩
  · have hcheck : (scopeOf? namesake).any (fun s => (LocalOrb.find? s.document.localOrbs "tools").any fun o =>
        (o.document.commands.get? "greet").any fun c =>
          !(commandSteps o.document ++ jobSteps o.document).any (anyStep (invokes c.name)) &&
            !(ownSteps s.document).any (anyStep (invokes (outsideName o c.name))) &&
            s.document.localOrbs.all (·.name == o.name) &&
            ((findings (document .standard none s)).filter (isUnusedAs "Command is unused")).isEmpty) = true := by
      decide +kernel
    simp only [Option.any_eq_true, Bool.and_eq_true, Bool.not_eq_true', List.isEmpty_iff] at hcheck
    obtain ⟨s, hs, o, ho, c, hc, ⟨⟨hbody, hown⟩, halone⟩, hfound⟩ := hcheck
    exact ⟨s, hs, o, List.mem_of_find?_eq_some ho, c, NameMap.mem_values_of_get? hc,
      not_needed_of_any hbody hown halone, hfound⟩

end OrbCommand

end Check

namespace Analyzer

open Check

/-- Of the findings of an analysis those that say that a command is unused are one for each command of a local orb, in
order, whose name no step has in the orb and none has with the name of the orb in the document. That is not what makes a
command needed: the check takes mistaken steps for uses and overlooks the steps of other orbs, and it errs just where
only one of the two is there. -/
theorem unusedCommands_found (a : Analyzer) (session : Session) (d : Document) :
    (∃ found, (a.check session d).1 = d.addFindings found ∧
      found.filter (isUnusedAs "Command is unused") =
        if a.settings.findsUnused then
          d.localOrbs.flatMap fun o => (OrbCommand.unusedIn d o).map OrbCommand.unusedWarning
        else []) ∧
    (∀ s : Check.Scope, s.document = d → ∀ o command, isOrbCommandUsed ⟨o.name, d⟩ o.document command = true ↔
      OrbCommand.UsedInside o command ∨ OrbCommand.UsedOutside s o command ∨ OrbCommand.Mistaken s o command) ∧
    ∀ s : Check.Scope, s.document = d → ∀ o command,
      (isOrbCommandUsed ⟨o.name, d⟩ o.document command = true ↔ OrbCommand.Needed s o command) ↔
        OrbCommand.UsedInside o command ∨ OrbCommand.UsedOutside s o command ∨
          (OrbCommand.Mistaken s o command ↔ OrbCommand.UsedByOther s o command) := by
  obtain ⟨scope, found, hcheck, hsettings, rfl, henclosing, hfound⟩ := a.exists_found session d
  refine ⟨⟨found, hcheck, ?_⟩, ?_, ?_⟩
  · rw [hfound, OrbCommand.filter_unusedWarnings henclosing, hsettings]
  · intro s hs o command
    rw [← hs]
    exact OrbCommand.isOrbCommandUsed_iff
  · intro s hs o command
    rw [← hs]
    exact OrbCommand.isOrbCommandUsed_iff_needed_iff

end Analyzer

end PipelineLint
