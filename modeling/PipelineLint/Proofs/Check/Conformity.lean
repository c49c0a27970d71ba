import PipelineLint.Check.Steps

/-! # Steps that conform

Which steps are right, told without the checks: a judgement on steps and on the values they assign, with one rule for
each way of being right. The checks find nothing in steps just if they conform: `steps_eq_nil_iff_conform`.
-/

namespace PipelineLint.Check

/-- A value of the type `source` can stand for one of the type `target`: they have the same word, or are both textual,
or a text names an executor. -/
inductive Compatible (target source : ParameterType) : Prop where
  | same (word : target.word = source.word)
  | textual (target : isTextual target = true) (source : isTextual source = true)
  | executorName {default default' : Option String} (target : target = .executor default)
      (source : source = .string default')

/-- A name can be that of an executor: it is not known yet, leads into an orb that is not known, or is the name of
one. -/
inductive NamesExecutor (s : Scope) (name : String) : Prop where
  | substitution (known : Reference.hasSubstitution name = true)
  | unknownOrb (orb : s.isFromUnknownOrb name = true)
  | executor (there : s.hasExecutor name = true)

/-- The form of a value is that of a type other than steps. -/
inductive Fits (s : Scope) : ParameterType → Value → Prop where
  | string {default : Option String} (text : String) : Fits s (.string default) (.text text)
  | boolean {default : Option Bool} (b : Bool) : Fits s (.boolean default) (.truth b)
  | integer {default : Option Int} (n : Int) : Fits s (.integer default) (.number n)
  | envVarName {default : Option String} (name : String) : Fits s (.envVarName default) (.text name)
  | envVarNumber {default : Option String} (n : Int) : Fits s (.envVarName default) (.number n)
  | enum {default : Option String} {values : List String} {range : Range} {v : Value} {text : String}
      (written : v.asText? = some text) (listed : text ∈ values) : Fits s (.enum default values range) v
  | executor {default : Option String} {name : String} (named : NamesExecutor s name) :
      Fits s (.executor default) (.text name)
  | executorMap {default : Option String} {fields : Assignments} {a : Assignment}
      (there : Assignments.get? fields "name" = some a) (named : ∀ name, a.value = .text name → NamesExecutor s name) :
      Fits s (.executor default) (.map fields)

/-- The condition of a run step is one of the known words, or may become one. -/
inductive ConditionConforms (s : Scope) (usable : Parameters) (text : String) : Prop where
  | undefined (bare : Reference.isOnly text = true) (none : s.referenced? usable text = none)
  | reference {p : Parameter} (bare : Reference.isOnly text = true) (some : s.referenced? usable text = some p)
      (textual : (∃ default, p.type = .string default) ∨ ∃ default values range, p.type = .enum default values range)
      (default : p.isOptional = true → ∀ word ∈ p.defaultText?, word ∈ Catalog.runWhenKeywords)
  | substitution (bare : Reference.isOnly text = false)
      (unknown : Reference.hasSubstitution text = true ∨ Reference.isPartial text = true)
  | word (bare : Reference.isOnly text = false) (known : text ∈ Catalog.runWhenKeywords)

/-- A run step is not written `deploy`, is repeated in the foreground only and one to five times, waits between
repetitions only and for a known time, and has a known condition. -/
structure RunConforms (s : Scope) (usable : Parameters) (r : Run) : Prop where
  current : r.isDeploy = false
  foreground : r.maxAutoReruns.isSome = true → r.background = false
  repeated : r.autoRerunDelay.isSome = true → r.maxAutoReruns.isSome = true
  delay : ∀ d ∈ r.autoRerunDelay, Reference.hasSubstitution d.text = false → rerunDelayFault? d.text = none
  count : ∀ c ∈ r.maxAutoReruns, Reference.hasSubstitution c.text = false →
    ∃ n, Text.signed? 64 c.text.toList = some n ∧ 1 ≤ n ∧ n ≤ maxAutoReruns
  condition : ∀ c ∈ r.condition, ConditionConforms s usable c.text

/-- The step is of a form of its own, with nothing in it that leads elsewhere. -/
def isSelfContained : Step → Bool
  | .named _ | .run _ | .steps .. => false
  | _ => true

mutual
/-- A step conforms, among the parameters that can be used around it. -/
inductive StepConforms (s : Scope) (usable : Parameters) : Step → Prop where
  | selfContained {st : Step} (form : isSelfContained st = true) : StepConforms s usable st
  | run {r : Run} (conforms : RunConforms s usable r) : StepConforms s usable (.run r)
  | place {range valueRange : Range} {name value : String}
      (steps : ∀ p, s.referenced? usable value = some p → ∃ default, p.type = .steps default) :
      StepConforms s usable (.steps range name value valueRange)
  | unnamed {i : Invocation} (empty : i.name = "") : StepConforms s usable (.named i)
  | unknownOrb {i : Invocation} (orb : s.isFromUnknownOrb i.name = true) : StepConforms s usable (.named i)
  | builtIn {i : Invocation} (known : s.isStepName i.name = true) (other : i.name ≠ "store_test_results")
      (listed : Catalog.isBuiltInStep i.name = true) : StepConforms s usable (.named i)
  | undeclared {i : Invocation} (known : s.isStepName i.name = true) (other : i.name ≠ "store_test_results")
      (none : s.definedParameters? i.name = none) : StepConforms s usable (.named i)
  | call {i : Invocation} {declared : Parameters} (known : s.isStepName i.name = true)
      (other : i.name ≠ "store_test_results") (some : s.definedParameters? i.name = some declared)
      (complete : ∀ entry ∈ declared.entries, entry.2.isOptional = false →
        Assignments.contains i.parameters entry.1 = true)
      (declares : ∀ a ∈ i.parameters, declared.contains a.name = true)
      (sound : ∀ a ∈ i.parameters, ∀ p, declared.get? a.name = .some p → ValueConforms s usable p.type a.value) :
      StepConforms s usable (.named i)
/-- A value conforms to the type of the parameter that it is given to. -/
inductive ValueConforms (s : Scope) (usable : Parameters) : ParameterType → Value → Prop where
  | undefined {type : ParameterType} {text : String} (bare : Reference.isOnly text = true)
      (none : s.referenced? usable text = none) : ValueConforms s usable type (.text text)
  | reference {type : ParameterType} {text : String} {p : Parameter} (bare : Reference.isOnly text = true)
      (some : s.referenced? usable text = some p) (compatible : Compatible type p.type) :
      ValueConforms s usable type (.text text)
  | substitution {type : ParameterType} {text : String} (bare : Reference.isOnly text = false)
      (unknown : Reference.hasSubstitution text = true) : ValueConforms s usable type (.text text)
  | aliased {type : ParameterType} (name : String) : ValueConforms s usable type (.alias name)
  | form {type : ParameterType} {v : Value} (literal : ∀ text, v = .text text → Reference.isOnly text = false)
      (fits : Fits s type v) : ValueConforms s usable type v
  | steps {default given : List Step} (all : ∀ st ∈ given, StepConforms s usable st) :
      ValueConforms s usable (.steps default) (.steps given)
  | items {default : List Step} {items : List Assignment}
      (steps : ∀ a ∈ items, ∀ given, a.value = .steps given → ∀ st ∈ given, StepConforms s usable st)
      (names : ∀ a ∈ items, ∀ name, a.value = .text name → s.isStepName name = true) :
      ValueConforms s usable (.steps default) (.list items)
end

variable {s : Scope} {usable : Parameters}

theorem isCompatible_iff {target source : ParameterType} :
    isCompatible target source = true ↔ Compatible target source := by
  unfold isCompatible
  split
  · exact iff_of_true rfl (.executorName rfl rfl)
  · next hnot =>
    rw [Bool.or_eq_true, Bool.and_eq_true, beq_iff_eq]
    constructor
    · rintro (⟨htarget, hsource⟩ | hword)
      · exact .textual htarget hsource
      · exact .same hword
    · rintro (hword | ⟨htarget, hsource⟩ | ⟨htarget, hsource⟩)
      · exact .inr hword
      · exact .inl ⟨htarget, hsource⟩
      · exact absurd hsource (hnot _ _ htarget)

theorem executorName_eq_nil_iff {name : String} {range : Range} :
    executorName s name range = [] ↔ NamesExecutor s name := by
  unfold executorName
  split
  · next h =>
    rw [Bool.or_eq_true, Bool.or_eq_true] at h
    refine iff_of_true rfl ?_
    rcases h with (h | h) | h
    · exact .substitution h
    · exact .unknownOrb h
    · exact .executor h
  · next h =>
    refine iff_of_false (List.cons_ne_nil _ _) fun hnamed => h ?_
    rcases hnamed with hname | hname | hname <;> simp [hname]

theorem executorValue_eq_nil_iff {p : Parameter} {entity : String} {range : Range} {default : Option String}
    {v : Value} : executorValue s p entity range v = [] ↔ Fits s (.executor default) v := by
  cases v with
  | text name =>
    rw [executorValue, executorName_eq_nil_iff]
    exact ⟨.executor, fun h => by cases h with | executor named => exact named⟩
  | map fields =>
    rw [executorValue]
    cases hname : Assignments.get? fields "name" with
    | none =>
      refine iff_of_false (List.cons_ne_nil _ _) fun h => ?_
      cases h with
      | executorMap there => cases hname.symm.trans there
    | some a =>
      obtain ⟨key, value, nameRange, range⟩ := a
      have hfits : Fits s (.executor default) (.map fields) ↔ ∀ name, value = .text name → NamesExecutor s name := by
        constructor
        · intro h
          cases h with
          | executorMap there named =>
            obtain rfl := Option.some.inj (hname.symm.trans there)
            exact named
        · exact .executorMap hname
      rw [hfits]
      cases value with
      | text name => simp [executorName_eq_nil_iff]
      | _ => simp
  | _ =>
    refine iff_of_false (List.cons_ne_nil _ _) fun h => ?_
    cases h

/-- A value of another form than steps fits just if nothing is found. -/
theorem plainValue_eq_nil_iff {p : Parameter} {entity : String} {range : Range} {v : Value}
    (htype : ∀ default, p.type ≠ .steps default) : plainValue s p entity range v = [] ↔ Fits s p.type v := by
  unfold plainValue
  generalize p.type = type at htype
  cases type with
  | string =>
    cases v with
    | text text => exact iff_of_true rfl (.string text)
    | _ => exact iff_of_false (List.cons_ne_nil _ _) nofun
  | boolean =>
    cases v with
    | truth b => exact iff_of_true rfl (.boolean b)
    | _ => exact iff_of_false (List.cons_ne_nil _ _) nofun
  | integer =>
    cases v with
    | number n => exact iff_of_true rfl (.integer n)
    | _ => exact iff_of_false (List.cons_ne_nil _ _) nofun
  | envVarName =>
    cases v with
    | text name => exact iff_of_true rfl (.envVarName name)
    | number n => exact iff_of_true rfl (.envVarNumber n)
    | _ => exact iff_of_false (List.cons_ne_nil _ _) nofun
  | enum default values valuesRange =>
    cases hwritten : v.asText? with
    | none =>
      simp only [hwritten]
      refine iff_of_false (List.cons_ne_nil _ _) fun h => ?_
      cases h with
      | enum written => cases hwritten.symm.trans written
    | some text =>
      have hfits : Fits s (.enum default values valuesRange) v ↔ text ∈ values := by
        constructor
        · intro h
          cases h with
          | enum written listed =>
            obtain rfl := Option.some.inj (hwritten.symm.trans written)
            exact listed
        · exact .enum hwritten
      simp [hwritten, hfits]
  | executor => exact executorValue_eq_nil_iff
  | steps default => exact absurd rfl (htype default)

theorem conditionText_eq_nil_iff {range : Range} {text : String} :
    conditionText range text = [] ↔ text ∈ Catalog.runWhenKeywords := by
  simp [conditionText]

theorem condition_eq_nil_iff {c : Located} : condition s usable c = [] ↔ ConditionConforms s usable c.text := by
  unfold condition
  cases hbare : Reference.isOnly c.text with
  | true =>
    rw [if_pos rfl]
    cases hreferenced : s.referenced? usable c.text with
    | none => exact iff_of_true rfl (.undefined hbare hreferenced)
    | some p =>
      have hconforms : ConditionConforms s usable c.text ↔
          ((∃ default, p.type = .string default) ∨ ∃ default values range, p.type = .enum default values range) ∧
          (p.isOptional = true → ∀ word ∈ p.defaultText?, word ∈ Catalog.runWhenKeywords) := by
        constructor
        · intro h
          cases h with
          | undefined bare none => cases hreferenced.symm.trans none
          | reference bare some textual default =>
            obtain rfl := Option.some.inj (hreferenced.symm.trans some)
            exact ⟨textual, default⟩
          | substitution bare | word bare => cases hbare.symm.trans bare
        · rintro ⟨textual, default⟩
          exact .reference hbare hreferenced textual default
      rw [hconforms]
      cases htype : p.type <;> cases hdefault : p.defaultText? <;> simp [htype, hdefault, conditionText_eq_nil_iff]
  | false =>
    rw [if_neg Bool.false_ne_true]
    split
    · next h => exact iff_of_true rfl (.substitution hbare (Bool.or_eq_true_iff.mp h))
    · next h =>
      rw [conditionText_eq_nil_iff]
      constructor
      · exact .word hbare
      · intro hc
        cases hc with
        | word bare known => exact known
        | substitution bare unknown => exact absurd (Bool.or_eq_true_iff.mpr unknown) h
        | undefined bare | reference bare => cases hbare.symm.trans bare

theorem isRerunCount_iff {text : String} :
    isRerunCount text = true ↔ ∃ n, Text.signed? 64 text.toList = some n ∧ 1 ≤ n ∧ n ≤ maxAutoReruns := by
  simp only [isRerunCount, Option.any_eq_true, Bool.and_eq_true, decide_eq_true_eq]

theorem reruns_eq_nil_iff {r : Run} : reruns r = [] ↔
    (r.maxAutoReruns.isSome = true → r.background = false) ∧
    (r.autoRerunDelay.isSome = true → r.maxAutoReruns.isSome = true) ∧
    (∀ d ∈ r.autoRerunDelay, Reference.hasSubstitution d.text = false → rerunDelayFault? d.text = none) ∧
    ∀ c ∈ r.maxAutoReruns, Reference.hasSubstitution c.text = false →
      ∃ n, Text.signed? 64 c.text.toList = some n ∧ 1 ≤ n ∧ n ≤ maxAutoReruns := by
  simp only [← isRerunCount_iff]
  unfold reruns
  cases r.maxAutoReruns <;> cases r.autoRerunDelay <;> simp

/-- Without the shell linter, nothing is found in a run step just if it conforms. -/
theorem run_eq_nil_iff (hlint : s.settings.lintsScripts = false) {r : Run} :
    run s usable r = [] ↔ RunConforms s usable r := by
  have hfound : run s usable r = [] ↔ r.isDeploy = false ∧ reruns r = [] ∧
      ∀ c ∈ r.condition, condition s usable c = [] := by
    rw [run, hlint]
    cases r.isDeploy <;> cases r.condition <;> simp
  rw [hfound, reruns_eq_nil_iff]
  simp only [condition_eq_nil_iff]
  constructor
  · rintro ⟨hcurrent, ⟨hforeground, hrepeated, hdelay, hcount⟩, hcondition⟩
    exact ⟨hcurrent, hforeground, hrepeated, hdelay, hcount, hcondition⟩
  · rintro ⟨hcurrent, hforeground, hrepeated, hdelay, hcount, hcondition⟩
    exact ⟨hcurrent, ⟨hforeground, hrepeated, hdelay, hcount⟩, hcondition⟩

theorem stepsPlace_eq_nil_iff {value : String} {range : Range} : stepsPlace s usable value range = [] ↔
    ∀ p, s.referenced? usable value = some p → ∃ default, p.type = .steps default := by
  unfold stepsPlace
  cases s.referenced? usable value with
  | none => simp
  | some p => cases htype : p.type <;> simp [htype]

theorem missing_eq_nil_iff {declared : Parameters} {entity : String} {range : Range} {isAssigned : String → Bool} :
    missing declared entity range isAssigned = [] ↔
      ∀ entry ∈ declared.entries, entry.2.isOptional = false → isAssigned entry.1 = true := by
  simp [missing, List.filter_eq_nil_iff]

theorem stepConforms_named_iff {i : Invocation} : StepConforms s usable (.named i) ↔
    i.name = "" ∨ s.isFromUnknownOrb i.name = true ∨
      s.isStepName i.name = true ∧ i.name ≠ "store_test_results" ∧
        (Catalog.isBuiltInStep i.name = true ∨ ∀ declared, s.definedParameters? i.name = some declared →
          (∀ entry ∈ declared.entries, entry.2.isOptional = false →
            Assignments.contains i.parameters entry.1 = true) ∧
          (∀ a ∈ i.parameters, declared.contains a.name = true) ∧
          ∀ a ∈ i.parameters, ∀ p, declared.get? a.name = some p → ValueConforms s usable p.type a.value) := by
  constructor
  · intro h
    cases h with
    | selfContained form => cases form
    | unnamed empty => exact .inl empty
    | unknownOrb orb => exact .inr (.inl orb)
    | builtIn known other listed => exact .inr (.inr ⟨known, other, .inl listed⟩)
    | undeclared known other none =>
      refine .inr (.inr ⟨known, other, .inr fun declared some => ?_⟩)
      cases none.symm.trans some
    | call known other some complete declares sound =>
      refine .inr (.inr ⟨known, other, .inr fun declared some' => ?_⟩)
      obtain rfl := Option.some.inj (some.symm.trans some')
      exact ⟨complete, declares, sound⟩
  · rintro (empty | orb | ⟨known, other, listed | hcall⟩)
    · exact .unnamed empty
    · exact .unknownOrb orb
    · exact .builtIn known other listed
    · cases hdeclared : s.definedParameters? i.name with
      | none => exact .undeclared known other hdeclared
      | some declared =>
        obtain ⟨complete, declares, sound⟩ := hcall declared hdeclared
        exact .call known other hdeclared complete declares sound

theorem valueConforms_reference_iff {type : ParameterType} {text : String} (hbare : Reference.isOnly text = true) :
    ValueConforms s usable type (.text text) ↔
      ∀ p, s.referenced? usable text = some p → Compatible type p.type := by
  constructor
  · intro h p hreferenced
    cases h with
    | undefined bare none => cases hreferenced.symm.trans none
    | reference bare some compatible =>
      obtain rfl := Option.some.inj (hreferenced.symm.trans some)
      exact compatible
    | substitution bare => cases hbare.symm.trans bare
    | form literal => cases hbare.symm.trans (literal text rfl)
  · intro h
    cases hreferenced : s.referenced? usable text with
    | none => exact .undefined hbare hreferenced
    | some p => exact .reference hbare hreferenced (h p hreferenced)

theorem valueConforms_text_iff {type : ParameterType} {text : String} (hbare : Reference.isOnly text = false) :
    ValueConforms s usable type (.text text) ↔
      Reference.hasSubstitution text = true ∨ Fits s type (.text text) := by
  constructor
  · intro h
    cases h with
    | undefined bare | reference bare => cases hbare.symm.trans bare
    | substitution bare unknown => exact .inl unknown
    | form literal fits => exact .inr fits
  · rintro (unknown | fits)
    · exact .substitution hbare unknown
    · refine .form (fun other hother => ?_) fits
      cases hother
      exact hbare

/-- A value that is no text conforms to a type other than steps by its form. -/
theorem valueConforms_iff_fits {type : ParameterType} {v : Value} (htype : ∀ default, type ≠ .steps default)
    (htext : ∀ text, v ≠ .text text) (halias : ∀ name, v ≠ .alias name) :
    ValueConforms s usable type v ↔ Fits s type v := by
  constructor
  · intro h
    cases h with
    | undefined | reference | substitution => exact absurd rfl (htext _)
    | aliased name => exact absurd rfl (halias name)
    | form literal fits => exact fits
    | steps | items => exact absurd rfl (htype _)
  · exact .form fun text h => absurd h (htext text)

theorem not_fits_steps {default : List Step} {v : Value} : ¬ Fits s (.steps default) v := nofun

theorem valueConforms_steps_iff {default given : List Step} :
    ValueConforms s usable (.steps default) (.steps given) ↔ ∀ st ∈ given, StepConforms s usable st := by
  refine ⟨fun h => ?_, .steps⟩
  cases h with
  | form literal fits => exact absurd fits not_fits_steps
  | steps all => exact all

theorem valueConforms_items_iff {default : List Step} {items : List Assignment} :
    ValueConforms s usable (.steps default) (.list items) ↔
      (∀ a ∈ items, ∀ given, a.value = .steps given → ∀ st ∈ given, StepConforms s usable st) ∧
      ∀ a ∈ items, ∀ name, a.value = .text name → s.isStepName name = true := by
  refine ⟨fun h => ?_, fun ⟨steps, names⟩ => .items steps names⟩
  cases h with
  | form literal fits => exact absurd fits not_fits_steps
  | items steps names => exact ⟨steps, names⟩

theorem referenceValue_eq_nil_iff {p : Parameter} {entity text : String} {range : Range} :
    referenceValue s usable p entity range text = [] ↔
      ∀ target, s.referenced? usable text = some target → Compatible p.type target.type := by
  unfold referenceValue
  cases s.referenced? usable text with
  | none => simp
  | some target => simp [← isCompatible_iff]

private theorem plainValue_eq_nil_iff_conforms {p : Parameter} {type : ParameterType} {entity : String} {range : Range}
    {v : Value} (htype : p.type = type) (hsteps : ∀ default, type ≠ .steps default) (htext : ∀ text, v ≠ .text text)
    (halias : ∀ name, v ≠ .alias name) :
    (plainValue s p entity range v).map Notice.finding = [] ↔ ValueConforms s usable type v := by
  subst htype
  rw [List.map_eq_nil_iff, plainValue_eq_nil_iff hsteps, valueConforms_iff_fits hsteps htext halias]

mutual
theorem step_eq_nil_iff (hlint : s.settings.lintsScripts = false) (usable : Parameters) :
    (st : Step) → (step s usable st = [] ↔ StepConforms s usable st)
  | .run r => by
    rw [step, run_eq_nil_iff hlint]
    exact ⟨.run, fun h => by cases h with | selfContained form => cases form | run conforms => exact conforms⟩
  | .steps range name value valueRange => by
    rw [step, List.map_eq_nil_iff, stepsPlace_eq_nil_iff]
    exact ⟨.place, fun h => by cases h with | selfContained form => cases form | place steps => exact steps⟩
  | .named ⟨name, range, parameters, parametersRange⟩ => by
    have hcall : ∀ declared, (missing declared name range (Assignments.contains parameters)).map Notice.finding ++
        values s usable name declared parameters = [] ↔
          (∀ entry ∈ declared.entries, entry.2.isOptional = false →
            Assignments.contains parameters entry.1 = true) ∧
          (∀ a ∈ parameters, declared.contains a.name = true) ∧
          ∀ a ∈ parameters, ∀ p, declared.get? a.name = some p → ValueConforms s usable p.type a.value := by
      intro declared
      rw [List.append_eq_nil_iff, List.map_eq_nil_iff, missing_eq_nil_iff,
        values_eq_nil_iff hlint usable name declared parameters]
    rw [step, stepConforms_named_iff]
    split
    · next hskipped =>
      rw [Bool.or_eq_true, String.isEmpty_iff] at hskipped
      exact iff_of_true rfl (hskipped.imp_right .inl)
    next hchecked =>
    obtain ⟨hnamed, hknown⟩ : name ≠ "" ∧ ¬s.isFromUnknownOrb name = true := by simpa using hchecked
    rw [or_iff_right hnamed, or_iff_right hknown]
    split
    · next hnone =>
      refine iff_of_false (List.cons_ne_nil _ _) fun h => ?_
      simp [h.1] at hnone
    next hstep =>
    rw [and_iff_right (by simpa using hstep)]
    split
    · next hstore => exact iff_of_false (List.cons_ne_nil _ _) fun h => h.1 (beq_iff_eq.mp hstore)
    next hstore =>
    rw [and_iff_right (by simpa using hstore)]
    split
    · next hbuiltIn => exact iff_of_true rfl (.inl hbuiltIn)
    next hbuiltIn =>
    rw [or_iff_right hbuiltIn]
    cases s.definedParameters? name with
    | none => exact iff_of_true rfl nofun
    | some declared =>
      rw [hcall declared]
      exact ⟨fun h _ heq => Option.some.inj heq ▸ h, fun h => h declared rfl⟩
  | .checkout .. | .setupRemoteDocker .. | .saveCache .. | .restoreCache .. | .storeArtifacts ..
  | .storeTestResults .. | .persistToWorkspace .. | .attachWorkspace .. | .addSshKeys .. => by
    simp only [step, true_iff]
    exact .selfContained rfl
theorem steps_eq_nil_iff (hlint : s.settings.lintsScripts = false) (usable : Parameters) :
    (sts : List Step) → (steps s usable sts = [] ↔ ∀ st ∈ sts, StepConforms s usable st)
  | [] => by simp [steps]
  | st :: sts => by
    rw [steps, List.append_eq_nil_iff, step_eq_nil_iff hlint usable st, steps_eq_nil_iff hlint usable sts,
      List.forall_mem_cons]
theorem values_eq_nil_iff (hlint : s.settings.lintsScripts = false) (usable : Parameters) (entity : String)
    (declared : Parameters) : (as : List Assignment) → (values s usable entity declared as = [] ↔
      (∀ a ∈ as, declared.contains a.name = true) ∧
      ∀ a ∈ as, ∀ p, declared.get? a.name = some p → ValueConforms s usable p.type a.value)
  | [] => by simp [values]
  | ⟨name, v, valueRange, range⟩ :: as => by
    rw [values, List.append_eq_nil_iff, values_eq_nil_iff hlint usable entity declared as, List.forall_mem_cons,
      List.forall_mem_cons, NameMap.contains_eq_isSome_get?]
    cases declared.get? name with
    | none => simp
    | some p => simp [value_eq_nil_iff hlint usable p entity valueRange v, and_left_comm]
theorem value_eq_nil_iff (hlint : s.settings.lintsScripts = false) (usable : Parameters) (p : Parameter)
    (entity : String) (range : Range) :
    (v : Value) → (value s usable p entity range v = [] ↔ ValueConforms s usable p.type v)
  | .text text => by
    rw [value]
    split
    · next hbare => rw [List.map_eq_nil_iff, referenceValue_eq_nil_iff, valueConforms_reference_iff hbare]
    · next hbare =>
      rw [valueConforms_text_iff (by simpa using hbare)]
      split
      · next h => exact iff_of_true rfl (.inl h)
      · next h =>
        rw [or_iff_right h]
        cases htype : p.type with
        | steps => exact iff_of_false (List.cons_ne_nil _ _) not_fits_steps
        | _ => rw [List.map_eq_nil_iff, plainValue_eq_nil_iff (by simp [htype]), htype]
  | .alias name => by
    rw [value]
    exact iff_of_true rfl (.aliased name)
  | .steps given => by
    rw [value]
    cases htype : p.type with
    | steps => rw [valueConforms_steps_iff, steps_eq_nil_iff hlint usable given]
    | _ => exact plainValue_eq_nil_iff_conforms htype nofun nofun nofun
  | .list items => by
    rw [value]
    cases htype : p.type with
    | steps => rw [valueConforms_items_iff, stepItems_eq_nil_iff hlint usable items]
    | _ => exact plainValue_eq_nil_iff_conforms htype nofun nofun nofun
  | .truth _ | .number _ | .map _ => by
    rw [value]
    · cases htype : p.type with
      | steps =>
        refine iff_of_false (List.cons_ne_nil _ _) fun h => ?_
        cases h with
        | form literal fits => exact not_fits_steps fits
      | _ => exact plainValue_eq_nil_iff_conforms htype nofun nofun nofun
    all_goals nofun
theorem stepItems_eq_nil_iff (hlint : s.settings.lintsScripts = false) (usable : Parameters) :
    (as : List Assignment) → (stepItems s usable as = [] ↔
      (∀ a ∈ as, ∀ given, a.value = .steps given → ∀ st ∈ given, StepConforms s usable st) ∧
      ∀ a ∈ as, ∀ name, a.value = .text name → s.isStepName name = true)
  | [] => by simp [stepItems]
  | ⟨_, v, valueRange, _⟩ :: as => by
    rw [stepItems, List.append_eq_nil_iff, stepItem_eq_nil_iff hlint usable valueRange v,
      stepItems_eq_nil_iff hlint usable as, List.forall_mem_cons, List.forall_mem_cons]
    exact and_and_and_comm
theorem stepItem_eq_nil_iff (hlint : s.settings.lintsScripts = false) (usable : Parameters) (range : Range) :
    (v : Value) → (stepItem s usable range v = [] ↔
      (∀ given, v = .steps given → ∀ st ∈ given, StepConforms s usable st) ∧
      ∀ name, v = .text name → s.isStepName name = true)
  | .steps given => by simp [stepItem, steps_eq_nil_iff hlint usable given]
  | .text name => by simp [stepItem, stepName]
  | .truth _ | .number _ | .list _ | .map _ | .alias _ => by simp [stepItem]
end

/-- Without the shell linter, nothing is found in steps just if all of them conform. -/
theorem steps_eq_nil_iff_conform (s : Scope) (hlint : s.settings.lintsScripts = false) (usable : Parameters)
    (sts : List Step) : steps s usable sts = [] ↔ ∀ st ∈ sts, StepConforms s usable st :=
  steps_eq_nil_iff hlint usable sts

/-- A document with a command that greets someone of a list and one that goes around other steps. -/
def greeter : Document :=
  { (default : Document) with
    commands := NameMap.ofList
      [("greet", { name := "greet"
                   parameters := NameMap.ofList [("to", { name := "to", type := .enum none ["world"] {} })] }),
       ("around", { name := "around"
                    parameters := NameMap.ofList [("inner", { name := "inner", type := .steps [] })] })] }

/-- The steps of a call inside a call conform. -/
theorem stepConforms_call_around_call :
    let s : Scope := { settings := {}, caches := {}, failures := ∅, document := greeter }
    let greet : Step := .named ⟨"greet", {}, [⟨"to", .text "world", {}, {}⟩], {}⟩
    let around : Step := .named ⟨"around", {}, [⟨"inner", .steps [greet], {}, {}⟩], {}⟩
    s.settings.lintsScripts = false ∧ steps s ∅ [around] = [] ∧ ∀ st ∈ [around], StepConforms s ∅ st := by
  intro s greet around
  have hnil : steps s ∅ [around] = [] := by decide +kernel
  exact ⟨rfl, hnil, (steps_eq_nil_iff_conform s rfl ∅ [around]).mp hnil⟩

end PipelineLint.Check
