import PipelineLint.Proofs.Document.CallSites
import PipelineLint.Proofs.Document.Endless
import PipelineLint.Proofs.Document.Restyle
import PipelineLint.Proofs.Check.Codes

/-! # Defaults of parameters

A declaration is read pair by pair, and the default where its pair stands. The other pairs pass the default on, so what
becomes of it does not depend on their order: the parameter is optional if a default of its type can be read, and
invalid are the items of a list that cannot be steps, or else the text that an enum does not list
(`optional_and_invalid_of_declares`).
-/

namespace PipelineLint

namespace Reads

variable {α β σ : Type}

/-- What is found in reading, if it ends, has a property. -/
def Finds (P : Diagnostic → Prop) (x : Reads α) : Prop := ∀ a found, x = Except.ok (a, found) → ∀ d ∈ found, P d

section Finds

variable {P : Diagnostic → Prop}

theorem finds_pure (a : α) : Finds P (pure a : Reads α) := by
  rintro b found h d hd
  obtain ⟨-, rfl⟩ := pure_eq_ok_iff.mp h
  cases hd

theorem finds_endless : Finds P (endless : Reads α) := fun _ _ h => nomatch h

theorem finds_note {d : Diagnostic} (hd : P d) : Finds P (note d) := by
  rintro b found h e he
  cases h
  exact List.mem_singleton.mp he ▸ hd

theorem Finds.bind {x : Reads α} {f : α → Reads β} (hx : Finds P x) (hf : ∀ a, Finds P (f a)) : Finds P (x >>= f) := by
  rintro b found h d hd
  obtain ⟨a, before, after, ha, hb, rfl⟩ := bind_eq_ok_iff.mp h
  rcases List.mem_append.mp hd with hd | hd
  · exact hx a before ha d hd
  · exact hf a b after hb d hd

theorem finds_each {f : α → Reads β} {xs : List α} (hf : ∀ x, Finds P (f x)) : Finds P (each f xs) := by
  induction xs with
  | nil => exact finds_pure _
  | cons x xs ih => exact (hf x).bind fun y => ih.bind fun ys => finds_pure _

end Finds

/-- Of what is found in each of some things, those with a property are those of the things one after the other. -/
theorem filter_of_each_eq_ok {f : α → Reads β} {p : Diagnostic → Bool} {g : α → List Diagnostic}
    (hf : ∀ x y found, f x = Except.ok (y, found) → found.filter p = g x) {xs : List α} {ys : List β}
    {found : List Diagnostic} (h : each f xs = Except.ok (ys, found)) : found.filter p = xs.flatMap g := by
  induction xs generalizing ys found with
  | nil =>
    obtain ⟨-, rfl⟩ := pure_eq_ok_iff.mp h
    rfl
  | cons x xs ih =>
    obtain ⟨y, before, ys, after, hy, hys, -, rfl⟩ := each_cons_eq_ok_iff.mp h
    rw [List.filter_append, hf x y before hy, ih hys, List.flatMap_cons]

private theorem of_through_append_eq_ok {f : σ → α → Reads σ} {xs ys : List α} {s s' : σ} {found : List Diagnostic}
    (h : through f s (xs ++ ys) = Except.ok (s', found)) : ∃ t before after,
      through f s xs = Except.ok (t, before) ∧ through f t ys = Except.ok (s', after) ∧ found = before ++ after := by
  induction xs generalizing s found with
  | nil => exact ⟨s, [], found, rfl, h, rfl⟩
  | cons x xs ih =>
    obtain ⟨u, first, rest, hfirst, hrest, rfl⟩ := bind_eq_ok_iff.mp h
    obtain ⟨t, before, after, hbefore, hafter, rfl⟩ := ih hrest
    have hboth : through f s (x :: xs) = Except.ok (t, first ++ before) :=
      bind_eq_ok_iff.mpr ⟨u, first, before, hfirst, hbefore, rfl⟩
    exact ⟨t, first ++ before, after, hboth, hafter, (List.append_assoc ..).symm⟩

end Reads

namespace Read

open Yaml Reads

variable {v : View}

/-- The finding says that a name has no value. -/
def LacksValue (d : Diagnostic) : Prop := d.code = some .missingValue

/-- Names without a value are all that is found in reading steps and values. -/
structure FindsMissing (v : View) (fuel : Nat) : Prop where
  steps : ∀ n, Finds LacksValue (Read.steps v fuel n)
  step : ∀ i, Finds LacksValue (Read.step v fuel i)
  conditional : ∀ n, Finds LacksValue (Read.conditional v fuel n)
  invocation : ∀ name p n, Finds LacksValue (Read.invocation v fuel name p n)
  assignments : ∀ ps, Finds LacksValue (Read.assignments v fuel ps)
  assignment : ∀ p, Finds LacksValue (Read.assignment v fuel p)
  listItems : ∀ name n, Finds LacksValue (Read.listItems v fuel name n)

namespace FindsMissing

variable {fuel : Nat}

private theorem zero : FindsMissing v 0 :=
  ⟨fun _ => finds_endless, fun _ => finds_endless, fun _ => finds_endless, fun _ _ _ => finds_endless,
    fun _ => finds_endless, fun _ => finds_endless, fun _ _ => finds_endless⟩

variable (h : FindsMissing v fuel)
include h

theorem step_succ (i : Item) : Finds LacksValue (Read.step v (fuel + 1) i) := by
  rw [Read.step]
  split
  · exact finds_pure _
  · split
    · split_ifs
      · exact finds_pure _
      · exact finds_pure _
    · split
      · exact finds_pure _
      · split
        · exact finds_pure _
        · dsimp only
          split_ifs
          · exact finds_pure _
          · exact finds_pure _
          · exact h.conditional _
          · split
            · exact finds_pure _
            · exact (h.invocation _ _ _).bind fun _ => finds_pure _

theorem conditional_succ (n : Node) : Finds LacksValue (Read.conditional v (fuel + 1) n) := by
  refine (finds_each fun p => ?_).bind fun _ => finds_pure _
  split
  · split_ifs
    · exact h.steps _
    · exact finds_pure _
  · exact finds_pure _

theorem invocation_succ (name : String) (p : Pair) (n : Node) :
    Finds LacksValue (Read.invocation v (fuel + 1) name p n) := by
  rw [Read.invocation]
  split
  · exact finds_pure _
  · exact (h.assignments _).bind fun _ => finds_pure _

theorem assignment_succ (p : Pair) : Finds LacksValue (Read.assignment v (fuel + 1) p) := by
  rw [Read.assignment]
  split
  · exact finds_pure _
  · refine Finds.bind (P := LacksValue) (finds_note ?_) fun _ => finds_pure _
    rfl
  · dsimp only
    split
    · exact finds_pure _
    · split_ifs
      · exact (h.listItems _ _).bind fun _ => finds_pure _
      · exact (h.assignments _).bind fun _ => finds_pure _
      · exact finds_pure _
      · exact finds_pure _

theorem listItems_succ (name : String) (n : Node) :
    Finds LacksValue (Read.listItems v (fuel + 1) name n) := by
  refine (finds_each fun i => ?_).bind fun _ => finds_pure _
  split_ifs
  · exact (h.step i).bind fun _ => finds_pure _
  · exact finds_pure _

private theorem succ : FindsMissing v (fuel + 1) where
  steps _ := (finds_each h.step).bind fun _ => finds_pure _
  step := h.step_succ
  conditional := h.conditional_succ
  invocation := h.invocation_succ
  assignments _ := (finds_each h.assignment).bind fun _ => finds_pure _
  assignment := h.assignment_succ
  listItems := h.listItems_succ

end FindsMissing

theorem findsMissing (v : View) (fuel : Nat) : FindsMissing v fuel := by
  induction fuel with
  | zero => exact .zero
  | succ fuel ih => exact ih.succ

def isInvalid (d : Diagnostic) : Bool := d.code == some .invalidValue

/-- What is said about an item that cannot be a step. -/
def notAStep (i : Item) : Diagnostic := .error .invalidValue i.range "Not a valid step"

/-- What is said about a default that an enum does not list. -/
def notListed (range : Range) (text : String) (values : List String) : Diagnostic :=
  .error .invalidValue range ("Default value " ++ text ++ " is not in enum '" ++ ", ".intercalate values ++ "'")

variable (v)

/-- A default of a type can be read from a value: from a number for an integer, from a sequence for steps, and from
anything for the other types. -/
def readsDefault (type : ParameterType) (value : Node) : Bool :=
  match type with
  | .integer _ => (Text.signed? 64 (v.text value).toList).isSome
  | .steps _ => (v.sequence? value).isSome
  | _ => true

def invalidItems (type : ParameterType) (value : Node) : List Diagnostic :=
  match type with
  | .steps _ => ((v.items value).filter fun i => !canBeStep v i).map notAStep
  | _ => []

variable {v}

private theorem filter_isInvalid_stepsDefault {n : Node} {steps : List Step} {found : List Diagnostic}
    (h : stepsDefault v n = Except.ok (steps, found)) :
    found.filter isInvalid = ((v.items n).filter fun i => !canBeStep v i).map notAStep := by
  obtain ⟨parts, found', last, hparts, hpure, rfl⟩ := bind_eq_ok_iff.mp h
  obtain ⟨-, rfl⟩ := pure_eq_ok_iff.mp hpure
  have hitem : ∀ i part found,
      (if canBeStep v i then readStep v i else do
        Reads.note (.error .invalidValue i.range "Not a valid step")
        pure []) = Except.ok (part, found) →
      found.filter isInvalid = if canBeStep v i then [] else [notAStep i] := by
    intro i part found hi
    split_ifs at hi ⊢
    · refine List.filter_eq_nil_iff.mpr fun d hd => ?_
      have hcode : d.code = some .missingValue := (findsMissing v _).step i part found hi d hd
      simp [isInvalid, hcode]
    · cases hi
      rfl
  rw [List.append_nil, filter_of_each_eq_ok hitem hparts]
  induction v.items n with
  | nil => rfl
  | cons i is ih => cases hi : canBeStep v i <;> simp [List.flatMap_cons, hi, ih]

def KeepsText (text : String) : ParameterType → Prop
  | .enum default _ _ => default = some text
  | _ => True

def listing? : ParameterType → Option (List String)
  | .enum _ values _ => some values
  | _ => none

theorem enumValues?_eq (a : Parameter) : a.enumValues? = listing? a.type := by
  unfold Parameter.enumValues? listing?
  cases a.type <;> rfl

private theorem of_defaultFor_eq_ok {type : ParameterType} {q : Pair} {value : Node} {found : Option ParameterType}
    {notes : List Diagnostic} (hq : q.value = some value) (h : defaultFor v type q = Except.ok (found, notes)) :
    found.isSome = readsDefault v type value ∧ notes.filter isInvalid = invalidItems v type value ∧
      ∀ type' ∈ found, KeepsText (v.text value) type' ∧ listing? type' = listing? type := by
  have htext : v.textOrEmpty q.value = v.text value := by simp [View.textOrEmpty, hq]
  cases type with
  | steps default =>
    simp only [defaultFor, hq, Option.filter_some] at h
    cases hsequence : v.sequence? value with
    | none =>
      simp only [hsequence, Option.isSome_none, Bool.false_eq_true, if_false] at h
      obtain ⟨rfl, rfl⟩ := pure_eq_ok_iff.mp h
      simp [readsDefault, invalidItems, View.items, hsequence]
    | some sequence =>
      simp only [hsequence, Option.isSome_some, if_true] at h
      obtain ⟨steps, noted, last, hsteps, hpure, rfl⟩ := bind_eq_ok_iff.mp h
      obtain ⟨rfl, rfl⟩ := pure_eq_ok_iff.mp hpure
      refine ⟨by simp [readsDefault, hsequence], ?_, by simp [KeepsText, listing?]⟩
      rw [List.append_nil]
      exact filter_isInvalid_stepsDefault hsteps
  | integer default =>
    obtain ⟨rfl, rfl⟩ := pure_eq_ok_iff.mp h
    refine ⟨by simp [readsDefault, htext], rfl, fun type' htype => ?_⟩
    obtain ⟨n, -, rfl⟩ := Option.map_eq_some_iff.mp htype
    exact ⟨trivial, rfl⟩
  | _ =>
    obtain ⟨rfl, rfl⟩ := pure_eq_ok_iff.mp h
    exact ⟨rfl, rfl, by simp [KeepsText, listing?, htext]⟩

variable (v)

/-- The values that an enum lists after a pair of its declaration. -/
def listedBy (values : List String) (p : Pair) : List String :=
  match p.value with
  | some value => if v.keyText p = "enum" then (v.texts value).map (·.text) else values
  | none => values

def listed (body : Node) : List String := (v.pairs body).foldl (listedBy v) []

/-- Pairs of a declaration that are no default pass the default on. -/
structure PassesDefault (before after : Parameter) (ps : List Pair) : Prop where
  hasDefault : after.hasDefault = before.hasDefault
  defaultRange : after.defaultRange = before.defaultRange
  word : after.type.word = before.type.word
  text : ∀ text, KeepsText text before.type → KeepsText text after.type
  values : listing? after.type = (listing? before.type).map fun values => ps.foldl (listedBy v) values

variable {v}

theorem PassesDefault.refl (a : Parameter) {ps : List Pair} (hps : ∀ values, ps.foldl (listedBy v) values = values) :
    PassesDefault v a a ps :=
  ⟨rfl, rfl, rfl, fun _ => id, by simp [hps]⟩

theorem PassesDefault.trans {a b c : Parameter} {ps qs : List Pair} (hab : PassesDefault v a b ps)
    (hbc : PassesDefault v b c qs) : PassesDefault v a c (ps ++ qs) where
  hasDefault := hbc.hasDefault.trans hab.hasDefault
  defaultRange := hbc.defaultRange.trans hab.defaultRange
  word := hbc.word.trans hab.word
  text text h := hbc.text text (hab.text text h)
  values := by
    rw [hbc.values, hab.values, Option.map_map]
    simp [Function.comp_def, List.foldl_append]

private theorem parameterField_passes {a : Parameter} {p : Pair} (hkey : v.keyText p ≠ "default") :
    ∃ b, parameterField v a p = pure b ∧ PassesDefault v a b [p] := by
  have hlisted (hp : v.keyText p ≠ "enum" ∨ p.value = none) (values : List String) :
      [p].foldl (listedBy v) values = values := by
    rw [List.foldl_cons, List.foldl_nil, listedBy]
    split
    · next hvalue => exact if_neg (hp.resolve_right (by simp [hvalue]))
    · rfl
  rw [parameterField]
  split
  · next h => exact ⟨_, rfl, rfl, rfl, rfl, fun _ => id, by simp [hlisted (.inl (by simp [h]))]⟩
  · next h =>
    split
    · next default values range value htype hvalue =>
      refine ⟨_, rfl, rfl, rfl, by rw [htype]; rfl, fun text ht => by rw [htype] at ht; exact ht, ?_⟩
      simp [htype, listing?, listedBy, hvalue, h]
    · next hother =>
      refine ⟨_, rfl, rfl, rfl, rfl, fun _ => id, ?_⟩
      cases hvalue : p.value with
      | none => simp [hlisted (.inr hvalue)]
      | some value =>
        have hnone : listing? a.type = none := by
          unfold listing?
          split
          · next default values range htype => exact absurd hvalue (hother default values range value htype)
          · rfl
        rw [hnone]
        rfl
  · next h => exact absurd h hkey
  · next henum _ => exact ⟨_, rfl, .refl _ (hlisted (.inl henum))⟩

private theorem through_passes {ps : List Pair} (hkeys : ∀ p ∈ ps, v.keyText p ≠ "default") {a b : Parameter}
    {found : List Diagnostic} (h : through (parameterField v) a ps = Except.ok (b, found)) :
    found = [] ∧ PassesDefault v a b ps := by
  induction ps generalizing a b found with
  | nil =>
    obtain ⟨rfl, rfl⟩ := pure_eq_ok_iff.mp h
    exact ⟨rfl, .refl _ fun _ => rfl⟩
  | cons p ps ih =>
    obtain ⟨hp, hps⟩ := List.forall_mem_cons.mp hkeys
    obtain ⟨c, before, after, hc, hrest, rfl⟩ := bind_eq_ok_iff.mp h
    obtain ⟨c', hpure, hpasses⟩ := parameterField_passes (a := a) hp
    obtain ⟨rfl, rfl⟩ := pure_eq_ok_iff.mp (hpure.symm.trans hc)
    obtain ⟨rfl, hpasses'⟩ := ih hps hrest
    exact ⟨rfl, hpasses.trans hpasses'⟩

/-- A pair `p` with the body `body` declares a parameter of a known type, with one default: the pair `q`, whose value is
written as `raw`, and not as an alias. -/
structure Declares (v : View) (p q : Pair) (body raw : Node) : Prop where
  key_isSome : p.key.isSome
  body_eq : p.value.bind v.mapping? = some body
  type_isSome : (ParameterType.ofWord? (v.textOrEmpty (v.field? body "type"))).isSome
  default_eq : (v.pairs body).filter (fun f => v.keyText f = "default") = [q]
  raw_eq : q.rawValue = some raw
  plain : View.aliasOf? raw = none

namespace Declares

variable {p q : Pair} {body raw : Node} (h : Declares v p q body raw)
include h

/-- The default stands among pairs that are none. -/
theorem split : ∃ before after, v.pairs body = before ++ q :: after ∧ v.keyText q = "default" ∧
    (∀ f ∈ before, v.keyText f ≠ "default") ∧ ∀ f ∈ after, v.keyText f ≠ "default" := by
  obtain ⟨before, after, hpairs, hbefore, hq, hafter⟩ := List.filter_eq_cons_iff.mp h.default_eq
  refine ⟨before, after, hpairs, of_decide_eq_true hq, fun f hf => ?_, fun f hf => ?_⟩
  · simpa using hbefore f hf
  · simpa using List.filter_eq_nil_iff.mp hafter f hf

theorem value_eq : q.value = some raw := by
  obtain ⟨before, after, hpairs, -⟩ := h.split
  have hmem : q ∈ v.pairs body := by simp [hpairs]
  have hresolve : v.resolve raw = raw := by rw [View.resolve, maxAliasSteps, View.resolveWithin, h.plain]
  rw [View.value_of_pair? (View.below_of_mem_pairs hmem).eq, h.raw_eq, Option.map_some, hresolve]

end Declares

/-- The list of an enum is that of the last pair with one, wherever the default stands. -/
theorem listed_of_split {body : Node} {before after : List Pair} {q : Pair}
    (hpairs : v.pairs body = before ++ q :: after)
    (hq : v.keyText q = "default") : listed v body = after.foldl (listedBy v) (before.foldl (listedBy v) []) := by
  have hsame : listedBy v (before.foldl (listedBy v) []) q = before.foldl (listedBy v) [] := by
    cases hvalue : q.value <;> simp [listedBy, hvalue, hq]
  rw [listed, hpairs, List.foldl_append, List.foldl_cons, hsame]

structure TakesDefault (v : View) (q : Pair) (raw : Node) (before after : Parameter) (notes : List Diagnostic) : Prop where
  hasDefault : after.hasDefault = readsDefault v before.type raw
  defaultRange : after.hasDefault = true → after.defaultRange = q.openRange
  word : after.type.word = before.type.word
  text : KeepsText (v.text raw) after.type
  values : listing? after.type = listing? before.type
  invalid : notes.filter isInvalid = invalidItems v before.type raw

private theorem takesDefault_of_parameterField {a b : Parameter} {q : Pair} {raw : Node} {notes : List Diagnostic}
    (hkey : v.keyText q = "default") (hvalue : q.value = some raw) (ha : a.hasDefault = false)
    (h : parameterField v a q = Except.ok (b, notes)) : TakesDefault v q raw a b notes := by
  rw [parameterField, hkey] at h
  obtain ⟨found, noted, last, hfound, hrest, rfl⟩ := bind_eq_ok_iff.mp h
  obtain ⟨hsome, hinvalid, hkept⟩ := of_defaultFor_eq_ok hvalue hfound
  have hword := always_word_defaultFor found noted hfound
  cases found with
  | none =>
    obtain ⟨rfl, rfl⟩ := pure_eq_ok_iff.mp hrest
    refine ⟨ha.trans hsome, fun hb => absurd (ha.symm.trans hb) Bool.false_ne_true, rfl, ?_, rfl, by simpa using hinvalid⟩
    generalize b.type = type at hsome ⊢
    cases type with
    | enum => cases hsome
    | _ => trivial
  | some type =>
    obtain ⟨rfl, rfl⟩ := pure_eq_ok_iff.mp hrest
    exact ⟨hsome, fun _ => rfl, hword type rfl, (hkept type rfl).1, (hkept type rfl).2, by simpa using hinvalid⟩

theorem readsDefault_eq_of_word_eq {type type' : ParameterType} (h : type.word = type'.word) (value : Node) :
    readsDefault v type value = readsDefault v type' value := by
  cases type <;> cases type' <;> first | rfl | simp [ParameterType.word] at h

private theorem readsDefault_of_enumValues? {a : Parameter} {value : Node} (h : a.enumValues?.isSome) :
    readsDefault v a.type value = true := by
  rw [enumValues?_eq] at h
  cases htype : a.type with
  | enum => rfl
  | _ =>
    rw [htype] at h
    cases h

/-- No values are listed before a declaration is read. -/
theorem eq_nil_of_listing? {word : String} {type : ParameterType} {values : List String}
    (htype : ParameterType.ofWord? word = some type) (h : listing? type = some values) : values = [] := by
  rw [ParameterType.ofWord?.eq_def] at htype
  split at htype <;> first | (obtain rfl := Option.some.inj htype; cases h <;> rfl) | cases htype

theorem invalidItems_eq_of_word_eq {type type' : ParameterType} (h : type.word = type'.word) (value : Node) :
    invalidItems v type value = invalidItems v type' value := by
  cases type <;> cases type' <;> first | rfl | simp [ParameterType.word] at h

namespace Declares

variable {p q : Pair} {body raw : Node} (h : Declares v p q body raw)
include h

/-- A declaration is read to an end, unless it is one of steps with a circular one in the default. -/
theorem returns_iff : (∃ declared found, parameter v p = Except.ok (some declared, found)) ↔
    (v.textOrEmpty (v.field? body "type") = "steps" → ∀ i ∈ v.items raw, canBeStep v i → ¬ (Call.step i).Circular v) := by
  have hcalls : AllEnd v (parameterCalls v p) ↔ (v.textOrEmpty (v.field? body "type") = "steps" →
      ∀ i ∈ v.items raw, canBeStep v i → ¬ (Call.step i).Circular v) := by
    obtain ⟨key, hkey⟩ := Option.isSome_iff_exists.mp h.key_isSome
    rw [parameterCalls, hkey, h.body_eq]
    dsimp only
    split_ifs with hword
    · rw [h.default_eq, List.flatMap_singleton, defaultCalls, h.value_eq]
      cases hsequence : v.sequence? raw with
      | none => simp [Option.filter_some, hsequence, hword, View.items]
      | some sequence => simp [Option.filter_some, hsequence, hword, allEnd_map]
    · simp [hword]
  have hsome : Always (fun declared => declared.isSome = true) (parameter v p) := by
    obtain ⟨key, hkey⟩ := Option.isSome_iff_exists.mp h.key_isSome
    rw [parameter, hkey, h.body_eq]
    dsimp only
    split
    · exact always_pure rfl
    · refine always_bind fun declared => ?_
      split
      · exact always_pure rfl
      · exact always_bind fun _ => always_pure rfl
  rw [← hcalls, ← returns_parameter_iff]
  constructor
  · rintro ⟨declared, found, hread⟩
    exact ⟨_, hread⟩
  · rintro ⟨⟨declared, found⟩, hread⟩
    obtain ⟨declared, rfl⟩ := Option.isSome_iff_exists.mp (hsome declared found hread)
    exact ⟨declared, found, hread⟩

end Declares

/-- The text of a default is stray if an enum does not list it. -/
theorem strayDefault?_eq {a : Parameter} {text : String} (htext : KeepsText text a.type) :
    a.strayDefault? = a.enumValues?.bind fun values => if values.contains text then none else some (text, values) := by
  unfold Parameter.strayDefault? Parameter.enumValues?
  generalize a.type = type at htext
  cases type with
  | enum default values range =>
    obtain rfl : default = some text := htext
    rfl
  | _ => rfl

private theorem of_strayDefault_eq_ok {a declared : Parameter} {text : String} {found : List Diagnostic}
    (htext : KeepsText text a.type)
    (h : (match a.strayDefault? with
      | none => pure (some a)
      | some (stray, values) => do
        Reads.note (notListed a.defaultRange stray values)
        pure (some a) : Reads (Option Parameter)) = Except.ok (some declared, found)) :
    declared = a ∧ found.filter isInvalid = match a.enumValues? with
      | some values => if values.contains text then [] else [notListed a.defaultRange text values]
      | none => [] := by
  rw [strayDefault?_eq htext] at h
  cases hvalues : a.enumValues? with
  | none =>
    rw [hvalues] at h
    obtain ⟨hdeclared, rfl⟩ := pure_eq_ok_iff.mp h
    exact ⟨Option.some.inj hdeclared, rfl⟩
  | some values =>
    rw [hvalues, Option.bind_some] at h
    dsimp only
    split_ifs with hlisted
    · rw [if_pos hlisted] at h
      obtain ⟨hdeclared, rfl⟩ := pure_eq_ok_iff.mp h
      exact ⟨Option.some.inj hdeclared, rfl⟩
    · rw [if_neg hlisted] at h
      obtain ⟨_, said, last, hsaid, hpure, rfl⟩ := bind_eq_ok_iff.mp h
      obtain ⟨hdeclared, rfl⟩ := pure_eq_ok_iff.mp hpure
      cases hsaid
      exact ⟨Option.some.inj hdeclared, rfl⟩

structure DefaultRead (v : View) (q : Pair) (body raw : Node) (declared : Parameter) (found : List Diagnostic) : Prop where
  word : declared.type.word = v.textOrEmpty (v.field? body "type")
  optional : declared.isOptional = readsDefault v declared.type raw
  values : ∀ values ∈ declared.enumValues?, values = listed v body
  invalid : found.filter isInvalid = invalidItems v declared.type raw ++ match declared.enumValues? with
    | some values => if values.contains (v.text raw) then [] else [notListed q.openRange (v.text raw) values]
    | none => []

theorem Declares.defaultRead {p q : Pair} {body raw : Node} (h : Declares v p q body raw) {declared : Parameter}
    {found : List Diagnostic} (hread : parameter v p = Except.ok (some declared, found)) :
    DefaultRead v q body raw declared found := by
  obtain ⟨key, hkey⟩ := Option.isSome_iff_exists.mp h.key_isSome
  obtain ⟨type, htype⟩ := Option.isSome_iff_exists.mp h.type_isSome
  have hfield : (v.find? body "type").bind (·.value) = v.field? body "type" := rfl
  rw [parameter, hkey, h.body_eq] at hread
  simp only [hfield, htype] at hread
  obtain ⟨a, noted, strayed, hpairs, hstray, rfl⟩ := bind_eq_ok_iff.mp hread
  obtain ⟨before, after, hsplit, hdefault, hbefore, hafter⟩ := h.split
  rw [hsplit] at hpairs
  obtain ⟨b, first, rest, hfirst, hrest, rfl⟩ := of_through_append_eq_ok hpairs
  obtain ⟨rfl, hpasses⟩ := through_passes hbefore hfirst
  obtain ⟨c, taken, last, hq, hlast, rfl⟩ := bind_eq_ok_iff.mp hrest
  have htakes := takesDefault_of_parameterField hdefault h.value_eq hpasses.hasDefault hq
  obtain ⟨rfl, hpasses'⟩ := through_passes hafter hlast
  have hword : a.type.word = b.type.word := hpasses'.word.trans htakes.word
  obtain ⟨rfl, hinvalid⟩ := of_strayDefault_eq_ok (hpasses'.text _ htakes.text) hstray
  have hoptional : declared.hasDefault = readsDefault v declared.type raw := by
    rw [hpasses'.hasDefault, htakes.hasDefault, readsDefault_eq_of_word_eq hword]
  refine ⟨?_, hoptional, ?_, ?_⟩
  · rw [hword, hpasses.word]
    exact word_of_ofWord? htype
  · intro values hvalues
    rw [enumValues?_eq, hpasses'.values, htakes.values, hpasses.values, Option.map_map] at hvalues
    obtain ⟨bare, hbare, rfl⟩ := Option.map_eq_some_iff.mp hvalues
    rw [eq_nil_of_listing? htype hbare, listed_of_split hsplit hdefault]
    rfl
  · have hrange : declared.enumValues?.isSome → declared.defaultRange = q.openRange := by
      intro hvalues
      rw [hpasses'.defaultRange]
      refine htakes.defaultRange ?_
      rw [← hpasses'.hasDefault, hoptional]
      exact readsDefault_of_enumValues? hvalues
    rw [List.append_nil, List.nil_append, List.filter_append, htakes.invalid, hinvalid, invalidItems_eq_of_word_eq hword]
    cases hvalues : declared.enumValues? with
    | none => rfl
    | some values => rw [hrange (by rw [hvalues]; rfl)]

variable {raw : Node}

/-- A value written as `raw`, which is no alias, is read as a value of a parameter. -/
inductive IsReadAs (v : View) (raw : Node) : Value → Prop where
  | list {sequence : Node} {items : Assignments} (holds : v.sequence? raw = some sequence) : IsReadAs v raw (.list items)
  | map {entries : Assignments} (none : v.sequence? raw = none) : IsReadAs v raw (.map entries)
  | scalar {content : Node} {value : Value} (holds : v.content? raw = some content) (none : v.sequence? raw = none)
      (stands : scalarValue? v content = some value) : IsReadAs v raw value

theorem withAlias_eq (hplain : View.aliasOf? raw = none) (value : Value) : withAlias v raw value = value := by
  unfold withAlias
  split
  · rfl
  · rfl
  · next h => cases hplain.symm.trans h
  · rfl

theorem always_isReadAs {fuel : Nat} {p : Pair} (hraw : p.rawValue = some raw) (hplain : View.aliasOf? raw = none) :
    Always (fun found => ∀ a ∈ found, IsReadAs v raw a.value) (assignment v fuel p) := by
  have hmade {name : String} {valueRange range : Range} {read : Reads (Option Value)}
      (hread : Always (fun found => ∀ value ∈ found, IsReadAs v raw value) read) :
      Always (fun found => ∀ a ∈ found, IsReadAs v raw a.value) (read >>= fun found =>
        pure (found.map fun value => Assignment.mk name (withAlias v raw value) valueRange range)) := by
    refine hread.bind fun found hfound => always_pure fun (a : Assignment) ha => ?_
    obtain ⟨value, hvalue, rfl⟩ := Option.map_eq_some_iff.mp ha
    rw [withAlias_eq hplain]
    exact hfound value hvalue
  cases fuel with
  | zero => exact always_endless
  | succ fuel =>
    rw [assignment]
    cases p.key with
    | none => exact always_pure (by simp)
    | some key =>
      rw [hraw]
      dsimp only
      have hsequence : v.sequence? raw = (v.content? raw).filter (·.kind.isSequence) := rfl
      cases hcontent : v.content? raw with
      | none => exact hmade (always_pure (by simp))
      | some content =>
        rw [hcontent, Option.filter_some] at hsequence
        dsimp only
        split
        · next hkind =>
          rw [if_pos hkind] at hsequence
          exact always_bind fun items => hmade (always_pure fun value hvalue => Option.some.inj hvalue ▸ .list hsequence)
        · next hkind =>
          rw [if_neg hkind] at hsequence
          split
          · exact always_bind fun entries => hmade (always_pure fun value hvalue => Option.some.inj hvalue ▸ .map hsequence)
          · split
            · exact hmade (always_pure fun value hvalue => .scalar hcontent hsequence hvalue)
            · exact hmade (always_pure (by simp))

/-- A scalar is read as its text or as a truth value, or as the number that it writes. -/
theorem cases_of_isReadAs {value : Value} (h : IsReadAs v raw value) : (∃ items, value = .list items) ∨
    (∃ entries, value = .map entries) ∨ value = .text (v.text raw) ∨ (∃ truth, value = .truth truth) ∨
    ∃ number, value = .number number ∧ Text.signed? 64 (v.text raw).toList = some number := by
  cases h with
  | list => exact .inl ⟨_, rfl⟩
  | map => exact .inr (.inl ⟨_, rfl⟩)
  | scalar holds none stands =>
    have htext : v.text raw = v.text _ := congrArg String.ofList (View.characters_of_content? holds)
    rw [htext]
    exact .inr (.inr (scalarValue?_cases stands))

theorem ne_of_isReadAs {value : Value} (h : IsReadAs v raw value) :
    (∀ name, value ≠ .alias name) ∧ ∀ given, value ≠ .steps given := by
  obtain ⟨_, rfl⟩ | ⟨_, rfl⟩ | rfl | ⟨_, rfl⟩ | ⟨_, rfl, -⟩ := cases_of_isReadAs h
  all_goals constructor <;> (intro _ h; cases h)

theorem signed?_of_isReadAs {number : Int} (h : IsReadAs v raw (.number number)) :
    Text.signed? 64 (v.text raw).toList = some number := by
  obtain ⟨_, h⟩ | ⟨_, h⟩ | h | ⟨_, h⟩ | ⟨_, h, hsigned⟩ := cases_of_isReadAs h <;> cases h
  exact hsigned

theorem isSome_sequence?_iff_of_isReadAs {value : Value} (h : IsReadAs v raw value) :
    (v.sequence? raw).isSome = true ↔ ∃ items, value = .list items := by
  cases h with
  | list holds => simp [holds]
  | map none => simp [none]
  | scalar _ none stands =>
    rw [none]
    obtain rfl | ⟨_, rfl⟩ | ⟨_, rfl, -⟩ := scalarValue?_cases stands <;> simp

end Read

end PipelineLint
