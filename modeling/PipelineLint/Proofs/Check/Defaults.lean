import PipelineLint.Concrete.Grammar.Stream
import PipelineLint.Proofs.Check.Conformity
import PipelineLint.Proofs.Check.MissingParameters
import PipelineLint.Proofs.Check.References
import PipelineLint.Proofs.Document.Defaults
import PipelineLint.Proofs.NameMap

/-! # Defaults and arguments

What can be given to a parameter in a call can be its default, up to a few forms that are overlooked. A reference cannot
be the default of an integer or of steps, which then stay required. A list of steps is an invalid default if an item
cannot be a step, though such an item is passed over in a call. And an enum compares the default as it is written, so
neither a reference nor another spelling of a listed truth word or number will do (`accepted_default_iff`).
-/

namespace PipelineLint

open Yaml Reads

namespace Text

/-- A number is written without angle brackets. -/
theorem signed?_eq_none_of_mem {bits : Nat} {cs : List Char} (h : '<' ∈ cs) : signed? bits cs = none := by
  have hdigits {ds : List Char} (hds : '<' ∈ ds) : digits? ds = none := by
    refine if_neg fun hall => ?_
    have hdigit := List.all_eq_true.mp (Bool.and_eq_true_iff.mp hall).2 _ hds
    exact absurd hdigit (by decide)
  unfold signed? integer?
  split
  · next rest =>
    have hrest : '<' ∈ rest := by simpa using h
    rw [hdigits hrest]
    rfl
  · unfold natural?
    split
    · next rest _ =>
      have hrest : '<' ∈ rest := by simpa using h
      rw [hdigits hrest]
      rfl
    · rw [hdigits h]
      rfl

end Text

namespace Check

variable {v : View} {p q : Pair} {body raw : Node} {s : Scope} {usable : Parameters} {declared : Parameter} {entity : String}

def IsSubstituted (value : Value) : Prop :=
  ∃ text, value = .text text ∧ (Reference.isOnly text = true ∨ Reference.hasSubstitution text = true)

private theorem not_isSubstituted_of_written? {value : Value} (h : value.written? = none) : ¬ IsSubstituted value := by
  rintro ⟨text, rfl, -⟩
  cases h

/-- For a type other than steps, a value that is no text with a substitution is checked by its form. -/
theorem value_eq_plainValue {range : Range} (htype : ∀ default, declared.type ≠ .steps default) : (value : Value) →
    ¬ IsSubstituted value → (∀ name, value ≠ .alias name) →
    Check.value s usable declared entity range value = (plainValue s declared entity range value).map .finding
  | .text text, hplain, _ => by
    rw [Check.value, if_neg fun h => hplain ⟨text, rfl, .inl h⟩, if_neg fun h => hplain ⟨text, rfl, .inr h⟩]
    split
    · next default hsteps => exact absurd hsteps (htype default)
    · rfl
  | .alias name, _, halias => absurd rfl (halias name)
  | .truth _, _, _ | .number _, _, _ | .list _, _, _ | .steps _, _, _ | .map _, _, _ => by
    rw [Check.value]
    · split
      · next default hsteps => exact absurd hsteps (htype default)
      · rfl
    all_goals (intro _ h; cases h)

/-- What is accepted for a type other than steps has a substitution or fits. -/
theorem fits_of_accepted {a : Assignment} (hread : Read.IsReadAs v raw a.value)
    (htype : ∀ default, declared.type ≠ .steps default)
    (haccepted : findings (assignment s usable declared entity a) = []) :
    IsSubstituted a.value ∨ Fits s declared.type a.value := by
  refine or_iff_not_imp_left.mpr fun hplain => ?_
  rw [assignment, value_eq_plainValue htype _ hplain (Read.ne_of_isReadAs hread).1, findings_map_finding] at haccepted
  exact (plainValue_eq_nil_iff htype).mp haccepted

/-- What is accepted for steps has a substitution or is a list. -/
theorem list_of_accepted {a : Assignment} {default : List Step} (hread : Read.IsReadAs v raw a.value)
    (htype : declared.type = .steps default) (haccepted : findings (assignment s usable declared entity a) = []) :
    IsSubstituted a.value ∨ ∃ items, a.value = .list items := by
  rw [assignment] at haccepted
  generalize a.value = value at hread haccepted ⊢
  obtain ⟨items, rfl⟩ | ⟨entries, rfl⟩ | rfl | ⟨truth, rfl⟩ | ⟨number, rfl, -⟩ := Read.cases_of_isReadAs hread
  case inl => exact .inr ⟨items, rfl⟩
  case inr.inr.inl =>
    refine .inl (by_contra fun hplain => ?_)
    rw [Check.value, if_neg fun h => hplain ⟨_, rfl, .inl h⟩, if_neg fun h => hplain ⟨_, rfl, .inr h⟩, htype] at haccepted
    cases haccepted
  all_goals
    simp only [Check.value, htype] at haccepted
    cases haccepted

private theorem signed?_eq_none_of_isSubstituted {value : Value} (hread : Read.IsReadAs v raw value)
    (h : IsSubstituted value) :
    Text.signed? 64 (v.text raw).toList = none := by
  obtain ⟨text, rfl, hsubstituted⟩ := h
  obtain ⟨_, h⟩ | ⟨_, h⟩ | h | ⟨_, h⟩ | ⟨_, h, -⟩ := Read.cases_of_isReadAs hread
  case inr.inr.inl =>
    obtain rfl := Value.text.inj h
    exact Text.signed?_eq_none_of_mem (hsubstituted.elim Reference.mem_of_isOnly Reference.mem_of_hasSubstitution)
  all_goals cases h

/-- The cases where a value that was read from `raw` is accepted in a call, but not as the default of a type. -/
inductive Overlooked (v : View) (raw : Node) : ParameterType → Value → Prop where
  | integer {default : Option Int} {value : Value} (substituted : IsSubstituted value) :
      Overlooked v raw (.integer default) value
  | steps {default : List Step} {value : Value} (substituted : IsSubstituted value) : Overlooked v raw (.steps default) value
  | item {default : List Step} {value : Value} {i : Item} (mem : i ∈ v.items raw) (not : Read.canBeStep v i = false) :
      Overlooked v raw (.steps default) value
  | enum {default : Option String} {values : List String} {range : Range} {value : Value} (substituted : IsSubstituted value)
      (notListed : v.text raw ∉ values) : Overlooked v raw (.enum default values range) value
  | spelling {default : Option String} {values : List String} {range : Range} {value : Value} {text : String}
      (stands : value.asText? = some text) (listed : text ∈ values) (notListed : v.text raw ∉ values) :
      Overlooked v raw (.enum default values range) value

variable {value : Value}

theorem overlooked_integer_iff {default : Option Int} :
    Overlooked v raw (.integer default) value ↔ IsSubstituted value := by
  constructor
  · intro h
    cases h with
    | integer substituted => exact substituted
  · exact .integer

theorem overlooked_steps_iff {default : List Step} : Overlooked v raw (.steps default) value ↔
    IsSubstituted value ∨ ∃ i ∈ v.items raw, Read.canBeStep v i = false := by
  constructor
  · intro h
    cases h with
    | steps substituted => exact .inl substituted
    | item mem not => exact .inr ⟨_, mem, not⟩
  · rintro (substituted | ⟨i, mem, not⟩)
    · exact .steps substituted
    · exact .item mem not

theorem overlooked_enum_iff {default : Option String} {values : List String} {range : Range} :
    Overlooked v raw (.enum default values range) value ↔
      v.text raw ∉ values ∧ (IsSubstituted value ∨ ∃ text ∈ values, value.asText? = some text) := by
  constructor
  · intro h
    cases h with
    | enum substituted notListed => exact ⟨notListed, .inl substituted⟩
    | spelling stands listed notListed => exact ⟨notListed, .inr ⟨_, listed, stands⟩⟩
  · rintro ⟨notListed, substituted | ⟨text, listed, stands⟩⟩
    · exact .enum substituted notListed
    · exact .spelling stands listed notListed

/-- A value that is accepted in a call is a valid default, unless it is overlooked. -/
theorem valid_default_iff {found : List Diagnostic} {a : Assignment}
    (hdefault : Read.DefaultRead v q body raw declared found) (hread : Read.IsReadAs v raw a.value)
    (haccepted : findings (assignment s usable declared entity a) = []) :
    (declared.isOptional = true ∧ found.filter Read.isInvalid = []) ↔ ¬ Overlooked v raw declared.type a.value := by
  have hfits := fun htype => fits_of_accepted hread htype haccepted
  have hlist := fun default (htype : declared.type = .steps default) => list_of_accepted hread htype haccepted
  rw [hdefault.optional, hdefault.invalid, Read.enumValues?_eq]
  generalize a.value = value at hread hfits hlist ⊢
  generalize declared.type = type at hfits hlist ⊢
  cases type with
  | integer default =>
    rw [overlooked_integer_iff]
    rcases hfits (by intro _ h; cases h) with hsubstituted | hfits
    · have hnone := signed?_eq_none_of_isSubstituted hread hsubstituted
      exact iff_of_false (by simp [Read.readsDefault, hnone]) (not_not_intro hsubstituted)
    · cases hfits with
      | integer number =>
        have hnumber := Read.signed?_of_isReadAs hread
        exact iff_of_true ⟨by simp [Read.readsDefault, hnumber], rfl⟩ (not_isSubstituted_of_written? rfl)
  | enum default values range =>
    have hsome : IsSubstituted value ∨ ∃ text ∈ values, value.asText? = some text := by
      refine (hfits (by intro _ h; cases h)).imp_right fun hfits => ?_
      cases hfits with
      | enum written listed => exact ⟨_, listed, written⟩
    rw [overlooked_enum_iff, and_iff_left hsome, not_not]
    by_cases hlisted : v.text raw ∈ values <;>
      simp [Read.readsDefault, Read.invalidItems, Read.listing?, hlisted]
  | steps default =>
    rw [overlooked_steps_iff, not_or]
    have hsequence : Read.readsDefault v (.steps default) raw = true ↔ ∃ items, value = .list items :=
      Read.isSome_sequence?_iff_of_isReadAs hread
    rcases hlist default rfl with hsubstituted | hitems
    · refine iff_of_false (fun h => ?_) fun h => h.1 hsubstituted
      obtain ⟨items, rfl⟩ := hsequence.mp h.1
      exact absurd hsubstituted (not_isSubstituted_of_written? rfl)
    · rw [and_iff_right (hsequence.mpr hitems), and_iff_right]
      · simp [Read.invalidItems, Read.listing?, List.filter_eq_nil_iff]
      · obtain ⟨items, rfl⟩ := hitems
        exact not_isSubstituted_of_written? rfl
  | _ => exact iff_of_true ⟨rfl, rfl⟩ fun h => by cases h

/-- The finding that an optional parameter is missing is not made. -/
theorem missingParameter_notMem_missing {ps : Parameters} {range : Range} {isAssigned : String → Bool}
    (hnodup : ps.keys.Nodup) (hget : ps.get? declared.name = some declared) (hoptional : declared.isOptional = true) :
    missingParameter declared.name entity range ∉ missing ps entity range isAssigned := by
  intro hmem
  obtain ⟨⟨name, parameter⟩, hentry, hsame⟩ := List.mem_map.mp hmem
  obtain ⟨hentry, hnot⟩ := List.mem_filter.mp hentry
  have hname : name = declared.name := by
    have hmessage := congrArg (String.toList ∘ Diagnostic.message) hsame
    exact String.toList_inj.mp (by simpa [missingParameter, Diagnostic.error] using hmessage)
  subst hname
  obtain rfl : parameter = declared := NameMap.eq_of_mem_entries hnodup hentry hget
  simp [hoptional] at hnot

/-- What a call accepts for a parameter is a valid default of its declaration, whatever the order of the pairs, unless
it is overlooked: the parameter is then optional and so never missing, and nothing in the default is invalid. The
default of an enum is found to be invalid once if its text is none of the listed ones, and otherwise not. -/
theorem accepted_default_iff (h : Read.Declares v p q body raw) :
    ((∃ declared found, Read.parameter v p = Except.ok (some declared, found)) ↔
      (v.textOrEmpty (v.field? body "type") = "steps" →
        ∀ i ∈ v.items raw, Read.canBeStep v i → ¬ (Read.Call.step i).Circular v)) ∧
    ∀ declared found, Read.parameter v p = Except.ok (some declared, found) →
      (∀ s usable entity argument a notes, argument.rawValue = some raw →
        Read.readAssignment v argument = Except.ok (some a, notes) →
        findings (assignment s usable declared entity a) = [] →
        ((declared.isOptional = true ∧ found.filter Read.isInvalid = []) ↔ ¬ Overlooked v raw declared.type a.value)) ∧
      (v.textOrEmpty (v.field? body "type") = "enum" → found.filter Read.isInvalid =
        if v.text raw ∈ Read.listed v body then [] else [Read.notListed q.openRange (v.text raw) (Read.listed v body)]) ∧
      (declared.isOptional = true → ∀ ps : Parameters, ps.keys.Nodup → ps.get? declared.name = some declared →
        ∀ entity range isAssigned, missingParameter declared.name entity range ∉ missing ps entity range isAssigned) := by
  refine ⟨h.returns_iff, fun declared found hread => ?_⟩
  have hdefault := h.defaultRead hread
  refine ⟨?_, fun hword => ?_, ?_⟩
  · intro s usable entity argument a notes hraw hargument haccepted
    have hreadAs := Read.always_isReadAs hraw h.plain _ _ hargument a rfl
    exact valid_default_iff hdefault hreadAs haccepted
  · have hword := hdefault.word.trans hword
    cases htype : declared.type with
    | enum default values range =>
      have hvalues : declared.enumValues? = some values := by rw [Read.enumValues?_eq, htype]; rfl
      obtain rfl := hdefault.values values hvalues
      rw [hdefault.invalid, hvalues, htype]
      simp [Read.invalidItems]
    | _ =>
      rw [htype] at hword
      simp [ParameterType.word] at hword
  · intro hoptional ps hnodup hget entity range isAssigned
    exact missingParameter_notMem_missing hnodup hget hoptional

/-- A text declares a parameter whose default a call accepts, with a property. -/
def Accepts (source : List Char) (P : Parameter → Value → List Diagnostic → Prop) : Prop :=
  ∃ d p q body raw declared found notes a, Document.parse .strict source = Except.ok d ∧
    Read.Declares (View.ofTree d.tree) p q body raw ∧
    Read.parameter (View.ofTree d.tree) p = Except.ok (some declared, found) ∧
    Read.readAssignment (View.ofTree d.tree) q = Except.ok (some a, notes) ∧
    findings (assignment (plainScope d) ∅ declared "greet" a) = [] ∧ P declared a.value found

theorem Accepts.mono {source : List Char} {P Q : Parameter → Value → List Diagnostic → Prop} (h : Accepts source P)
    (hPQ : ∀ declared value found, P declared value found → Q declared value found) : Accepts source Q := by
  obtain ⟨d, p, q, body, raw, declared, found, notes, a, hd, hdeclares, hread, hargument, haccepted, hP⟩ := h
  exact ⟨d, p, q, body, raw, declared, found, notes, a, hd, hdeclares, hread, hargument, haccepted, hPQ _ _ _ hP⟩

/-- The declaration of the parameter `to` of the command `greet`. -/
def declaration? (v : View) : Option Pair := do
  let commands ← v.field? v.tree.top "commands"
  let greet ← v.field? commands "greet"
  let parameters ← v.field? greet "parameters"
  v.find? parameters "to"

/-- A call accepts the default of a declaration, with a property. -/
def acceptsIn (d : Document) (p : Pair) (test : Parameter → Value → List Diagnostic → Bool) : Bool :=
  let v := View.ofTree d.tree
  p.key.isSome && (p.value.bind v.mapping?).any fun body =>
    (ParameterType.ofWord? (v.textOrEmpty (v.field? body "type"))).isSome &&
    match (v.pairs body).filter (fun f => v.keyText f = "default") with
    | [q] => q.rawValue.any fun raw => (View.aliasOf? raw).isNone &&
      match Read.parameter v p, Read.readAssignment v q with
      | .ok (some declared, found), .ok (some a, _) =>
        (findings (assignment (plainScope d) ∅ declared "greet" a)).isEmpty && test declared a.value found
      | _, _ => false
    | _ => false

theorem accepts_of_acceptsIn {source : List Char} {test : Parameter → Value → List Diagnostic → Bool}
    (h : (Document.parse .strict source).toOption.any fun d =>
      (declaration? (View.ofTree d.tree)).any fun p => acceptsIn d p test) :
    Accepts source fun declared value found => test declared value found := by
  obtain ⟨d, hd, h⟩ := (Option.any_eq_true _ _).mp h
  obtain ⟨p, -, h⟩ := (Option.any_eq_true _ _).mp h
  simp only [acceptsIn, Bool.and_eq_true, Option.any_eq_true] at h
  obtain ⟨hkey, body, hbody, htype, h⟩ := h
  split at h
  · next q hdefault =>
    simp only [Bool.and_eq_true, Option.any_eq_true, Option.isNone_iff_eq_none] at h
    obtain ⟨raw, hraw, hplain, h⟩ := h
    split at h
    · next declared found a notes hdeclared ha =>
      obtain ⟨haccepted, htest⟩ := Bool.and_eq_true_iff.mp h
      exact ⟨d, p, q, body, raw, declared, found, notes, a, eq_ok_of_toOption hd,
        ⟨hkey, hbody, htype, hdefault, hraw, hplain⟩, hdeclared, ha, List.isEmpty_iff.mp haccepted, htest⟩
    · cases h
  · cases h

def isInteger (type : ParameterType) (value : Value) : Bool :=
  match type, value with
  | .integer _, .number _ => true
  | _, _ => false

/-- A number that a call accepts for an integer is its default. -/
theorem accepted_default_iff_of_three :
    Accepts "commands: {greet: {parameters: {to: {default: 3, type: integer}}}}".toList fun declared _ found =>
      declared.isOptional = true ∧ found.filter Read.isInvalid = [] := by
  have haccepts : Accepts "commands: {greet: {parameters: {to: {default: 3, type: integer}}}}".toList
      fun declared value _ => isInteger declared.type value = true := accepts_of_acceptsIn (by decide +kernel)
  obtain ⟨d, p, q, body, raw, declared, found, notes, a, hd, hdeclares, hread, hargument, haccepted, hinteger⟩ := haccepts
  have hiff := ((accepted_default_iff hdeclares).2 declared found hread).1 (plainScope d) ∅ "greet" q a notes hdeclares.raw_eq
    hargument haccepted
  refine ⟨d, p, q, body, raw, declared, found, notes, a, hd, hdeclares, hread, hargument, haccepted, hiff.mpr fun h => ?_⟩
  generalize declared.type = type at hinteger h
  generalize a.value = value at hinteger h
  cases h with
  | integer substituted =>
    obtain ⟨text, rfl, -⟩ := substituted
    cases hinteger
  | steps | item | enum | spelling => cases hinteger

/-- A text declares a parameter whose default a call accepts, but which stays required, or whose default is invalid. -/
def RefusesDefault (source : List Char) : Prop :=
  Accepts source fun declared _ found => ¬ (declared.isOptional = true ∧ found.filter Read.isInvalid = [])

def isRefused (declared : Parameter) (_ : Value) (found : List Diagnostic) : Bool :=
  !(declared.isOptional && (found.filter Read.isInvalid).isEmpty)

private theorem refusesDefault_of_acceptsIn {source : List Char}
    (h : (Document.parse .strict source).toOption.any fun d =>
    (declaration? (View.ofTree d.tree)).any fun p => acceptsIn d p isRefused) : RefusesDefault source := by
  refine (accepts_of_acceptsIn h).mono fun declared _ found hrefused hvalid => ?_
  simp [isRefused, hvalid] at hrefused

/-- A reference for an integer is refused, and so are an item that is no step, and a truth word in another spelling than
the listed one. -/
theorem accepted_defaults_refused :
    RefusesDefault ("parameters: {n: {type: integer}}\n" ++
      "commands: {greet: {parameters: {to: {type: integer, default: << pipeline.parameters.n >>}}}}").toList ∧
    RefusesDefault "commands: {greet: {parameters: {to: {type: steps, default: [{}]}}}}".toList ∧
    RefusesDefault "commands: {greet: {parameters: {to: {type: enum, enum: [true], default: yes}}}}".toList :=
  ⟨refusesDefault_of_acceptsIn (by decide +kernel), refusesDefault_of_acceptsIn (by decide +kernel),
    refusesDefault_of_acceptsIn (by decide +kernel)⟩

end Check

end PipelineLint
