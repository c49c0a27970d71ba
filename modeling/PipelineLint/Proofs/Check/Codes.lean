import PipelineLint.Session.Analyzer

/-! # Kinds of findings

Which kinds of findings each check can have, and what the answers of collaborators add to them. A check of which it is
known that it has none of some kind need not be looked at again where findings of that kind are counted.
-/

namespace PipelineLint

namespace Check

def findings (ns : List Notice) : List Diagnostic :=
  ns.filterMap fun
    | .finding d => some d
    | _ => none

section findings

variable {ns ms : List Notice} {d : Diagnostic}

theorem mem_findings_iff : d ∈ findings ns ↔ .finding d ∈ ns := by
  rw [findings, List.mem_filterMap]
  constructor
  · rintro ⟨n, hn, heq⟩
    cases n with
    | finding e =>
      obtain rfl : e = d := by simpa using heq
      exact hn
    | image | script => cases heq
  · exact fun h => ⟨_, h, rfl⟩

@[simp] theorem findings_nil : findings [] = [] := rfl

@[simp] theorem findings_cons_finding : findings (.finding d :: ns) = d :: findings ns := rfl

@[simp] theorem findings_append : findings (ns ++ ms) = findings ns ++ findings ms := List.filterMap_append

@[simp] theorem findings_flatMap {α : Type} {f : α → List Notice} {xs : List α} :
    findings (xs.flatMap f) = xs.flatMap fun x => findings (f x) := List.filterMap_flatMap

@[simp] theorem findings_map {α : Type} {f : α → Diagnostic} {xs : List α} :
    findings (xs.map fun x => .finding (f x)) = xs.map f := by
  rw [findings, List.filterMap_map]
  exact congrFun List.filterMap_eq_map xs

@[simp] theorem findings_map_finding {ds : List Diagnostic} : findings (ds.map .finding) = ds := by
  simpa using findings_map (f := id)

@[simp] theorem findings_script (r : Run) : findings [.script r] = [] := rfl

@[simp] theorem findings_image (spec : ImageSpec) : findings [.image spec] = [] := rfl

@[simp] theorem findings_ite {c : Prop} [Decidable c] :
    findings (if c then ns else ms) = if c then findings ns else findings ms := apply_ite findings c ns ms

end findings

/-- A check that is on has one finding for each member that satisfies `p`, and one that is off has none. -/
theorem flatMap_ite_singleton {α β : Type} (on : Bool) (p : α → Bool) (f : α → β) (xs : List α) :
    (xs.flatMap fun x => if (on && p x) = true then [f x] else []) = if on then (xs.filter p).map f else [] := by
  induction xs with
  | nil => cases on <;> rfl
  | cons x xs ih => cases on <;> cases h : p x <;> simp_all [List.flatMap_cons]

def Each {α : Type} (P : α → Prop) (xs : List α) : Prop := ∀ x ∈ xs, P x

section Each

variable {α β : Type} {P : α → Prop} {x : α} {xs ys : List α}

@[simp] theorem each_nil : Each P [] := List.forall_mem_nil _

@[simp] theorem each_cons : Each P (x :: xs) ↔ P x ∧ Each P xs := List.forall_mem_cons

theorem each_singleton : Each P [x] ↔ P x := List.forall_mem_singleton

@[simp] theorem each_append : Each P (xs ++ ys) ↔ Each P xs ∧ Each P ys := List.forall_mem_append

@[simp] theorem each_flatMap {f : β → List α} {zs : List β} : Each P (zs.flatMap f) ↔ ∀ z ∈ zs, Each P (f z) := by
  simp only [Each, List.mem_flatMap, forall_exists_index, and_imp]
  exact ⟨fun h z hz x hx => h x z hz hx, fun h x z hz hx => h z hz x hx⟩

theorem each_map {f : β → α} {zs : List β} : Each P (zs.map f) ↔ ∀ z ∈ zs, P (f z) := List.forall_mem_map

@[simp] theorem each_toList {f : β → α} {z : Option β} : Each P (z.map f).toList ↔ ∀ b ∈ z, P (f b) := by
  cases z <;> simp

@[simp] theorem each_ite {c : Prop} [Decidable c] :
    Each P (if c then xs else ys) ↔ (c → Each P xs) ∧ (¬c → Each P ys) := by
  split <;> simp [*]

end Each

/-- The finding has no kind, or one of some kinds. -/
def isOf (codes : List Code) (d : Diagnostic) : Bool := d.code.all codes.contains

/-- Every finding has no kind, or one of some kinds. -/
def Coded (codes : List Code) (ds : List Diagnostic) : Prop := ∀ d ∈ ds, isOf codes d = true

section Coded

variable {codes : List Code} {d : Diagnostic} {ds es : List Diagnostic}

@[simp] theorem coded_nil : Coded codes [] := each_nil

@[simp] theorem coded_cons : Coded codes (d :: ds) ↔ isOf codes d = true ∧ Coded codes ds := each_cons

@[simp] theorem coded_append : Coded codes (ds ++ es) ↔ Coded codes ds ∧ Coded codes es := each_append

@[simp] theorem coded_flatMap {α : Type} {f : α → List Diagnostic} {xs : List α} :
    Coded codes (xs.flatMap f) ↔ ∀ x ∈ xs, Coded codes (f x) := each_flatMap

@[simp] theorem coded_map {α : Type} {f : α → Diagnostic} {xs : List α} :
    Coded codes (xs.map f) ↔ ∀ x ∈ xs, isOf codes (f x) = true := each_map

@[simp] theorem coded_toList {α : Type} {f : α → Diagnostic} {x : Option α} :
    Coded codes (x.map f).toList ↔ ∀ a ∈ x, isOf codes (f a) = true := each_toList

@[simp] theorem coded_ite {c : Prop} [Decidable c] :
    Coded codes (if c then ds else es) ↔ (c → Coded codes ds) ∧ (¬c → Coded codes es) := each_ite

@[simp] theorem isOf_error (code : Code) (range : Range) (message : String) :
    isOf codes (.error code range message) = codes.contains code := rfl

@[simp] theorem isOf_warning (code : Code) (range : Range) (message : String) :
    isOf codes (.warning code range message) = codes.contains code := rfl

@[simp] theorem isOf_hint (code : Code) (range : Range) (message : String) :
    isOf codes (.hint code range message) = codes.contains code := rfl

@[simp] theorem isOf_mk (severity : Severity) (message : String) (range : Range) :
    isOf codes { severity, message, range } = true := rfl

@[simp] theorem isOf_withHelp (help : String) : isOf codes (d.withHelp help) = isOf codes d := rfl

@[simp] theorem isOf_withAction (action : Action) : isOf codes (d.withAction action) = isOf codes d := rfl

@[simp] theorem isOf_withTag (tag : Tag) : isOf codes (d.withTag tag) = isOf codes d := by
  unfold Diagnostic.withTag
  split <;> rfl

@[simp] theorem isOf_unused (severity : Severity) (message : String) (range : Range) :
    isOf codes (unused severity message range) = codes.contains .unused := by
  rw [unused, isOf_withTag]
  rfl

@[simp] theorem isOf_typeMismatch (p : Parameter) (entity : String) (range : Range) :
    isOf codes (typeMismatch p entity range) = codes.contains .typeMismatch := rfl

@[simp] theorem isOf_undeclared (name entity : String) (range : Range) :
    isOf codes (undeclared name entity range) = codes.contains .undefinedParameter := rfl

theorem Coded.mono {more : List Code} (h : Coded codes ds) (hsubset : codes ⊆ more) : Coded more ds := by
  intro d hd
  have hcode := h d hd
  rw [isOf, Option.all_eq_true] at hcode ⊢
  exact fun c hc => List.contains_iff_mem.mpr (hsubset (List.contains_iff_mem.mp (hcode c hc)))

/-- Of kinds that are none of the kinds of some findings there is no finding. -/
theorem Coded.any_eq_false {k : Code → Bool} (h : Coded codes ds) (hnone : codes.any k = false) :
    ∀ d ∈ ds, d.code.any k = false := by
  intro d hd
  have hcode := h d hd
  cases hc : d.code with
  | none => rfl
  | some c =>
    rw [isOf, hc] at hcode
    simpa using List.any_eq_false.mp hnone c (List.contains_iff_mem.mp hcode)

def hasCode (code : Code) (d : Diagnostic) : Bool := d.code == some code

theorem hasCode_eq_false {code : Code} (h : isOf codes d = true) (hnone : codes.contains code = false) :
    hasCode code d = false := by
  cases hcode : hasCode code d with
  | false => rfl
  | true =>
    rw [hasCode, beq_iff_eq] at hcode
    rw [isOf, hcode, Option.all_some, hnone] at h
    cases h

theorem Coded.filter_hasCode {code : Code} (h : Coded codes ds) (hnone : codes.contains code = false) :
    ds.filter (hasCode code) = [] :=
  List.filter_eq_nil_iff.mpr fun d hd => by simp [hasCode_eq_false (h d hd) hnone]

end Coded

variable {s : Scope}

theorem coded_missing (declared : Parameters) (entity : String) (range : Range) (isAssigned : String → Bool) :
    Coded [.missingParameter] (missing declared entity range isAssigned) := by
  simp [missing]

theorem coded_stepsPlace (usable : Parameters) (value : String) (range : Range) :
    Coded [.typeMismatch] (stepsPlace s usable value range) := by
  unfold stepsPlace
  split
  · simp
  · split <;> simp

theorem coded_referenceValue (usable : Parameters) (p : Parameter) (entity : String) (range : Range) (text : String) :
    Coded [.typeMismatch] (referenceValue s usable p entity range text) := by
  unfold referenceValue
  split <;> simp

theorem coded_stepName (name : String) (range : Range) : Coded [.undefinedCommand] (stepName s name range) := by
  simp [stepName]

private theorem coded_executorValue (p : Parameter) (entity : String) (range : Range) (v : Value) :
    Coded [.undefinedExecutor, .missingValue, .typeMismatch] (executorValue s p entity range v) := by
  unfold executorValue
  repeat' split
  all_goals simp [executorName]

theorem coded_plainValue (p : Parameter) (entity : String) (range : Range) (v : Value) :
    Coded [.undefinedExecutor, .missingValue, .typeMismatch, .invalidValue] (plainValue s p entity range v) := by
  unfold plainValue
  cases p.type with
  | executor => exact (coded_executorValue p entity range v).mono (by simp)
  | steps => exact coded_nil
  | enum =>
    dsimp only
    cases v.asText? <;> simp
  | _ => cases v <;> simp

private theorem coded_conditionText (range : Range) (text : String) :
    Coded [.invalidRun] (conditionText range text) := by
  simp [conditionText]

private theorem coded_condition (usable : Parameters) (c : Located) :
    Coded [.invalidRun, .typeMismatch] (condition s usable c) := by
  have htext : ∀ text, Coded [.invalidRun, .typeMismatch] (conditionText c.range text) :=
    fun text => (coded_conditionText c.range text).mono (by simp)
  unfold condition
  repeat' split
  all_goals simp [htext]

private theorem coded_reruns (r : Run) : Coded [.invalidRun] (reruns r) := by
  unfold reruns
  cases r.maxAutoReruns <;> cases r.autoRerunDelay <;> simp

theorem coded_run (usable : Parameters) (r : Run) :
    Coded [.deprecatedKey, .invalidRun, .typeMismatch] (findings (run s usable r)) := by
  have hreruns : Coded [.deprecatedKey, .invalidRun, .typeMismatch] (reruns r) := (coded_reruns r).mono (by simp)
  have hcondition : ∀ c, Coded [.deprecatedKey, .invalidRun, .typeMismatch] (condition s usable c) :=
    fun c => (coded_condition usable c).mono (by simp)
  cases h : r.condition <;> simp [run, h, hreruns, hcondition]

theorem coded_statuses (located : List Located) (seen : List String) :
    Coded [.invalidValue] (statuses seen located) := by
  induction located generalizing seen with
  | nil => simp [statuses]
  | cons status rest ih => simp [statuses, ih]

theorem coded_requirement (w : Workflow) (r : Requirement) :
    Coded [.undefinedRequirement, .invalidValue] (requirement w r) := by
  have hstatuses : Coded [.undefinedRequirement, .invalidValue] (statuses [] r.statuses) :=
    (coded_statuses r.statuses []).mono (by simp)
  simp [requirement, hstatuses]

theorem coded_context (c : Located) : Coded [.undefinedContext] (context s c) := by
  simp [context]

theorem coded_jobReruns (count : Located) : Coded [.invalidValue] (jobReruns count) := by
  simp [jobReruns]

theorem coded_cycles : Coded [.dependencyCycle] (findings (cycles s)) := by
  simp [cycles]

theorem coded_jobType (j : Job) : Coded [.invalidJobType] (jobType j) := by
  unfold jobType
  split <;> simp

theorem coded_ignoredSteps (j : Job) : Coded [.ignoredConfiguration] (ignoredSteps j) := by
  simp [ignoredSteps]

theorem coded_unusedJob (j : Job) : Coded [.unused] (unusedJob s j) := by
  simp [unusedJob]

theorem coded_unusedCommand (c : Command) : Coded [.unused] (unusedCommand s c) := by
  unfold unusedCommand
  split <;> simp

theorem coded_untoldResults (j : Job) : Coded [] (untoldResults j) := by
  unfold untoldResults
  split
  · simp only [coded_cons, isOf_mk, coded_nil, true_and]
  · exact coded_nil

theorem coded_parallelism (j : Job) : Coded [] (parallelism j) := by
  unfold parallelism
  split
  · simp only [coded_cons, isOf_withHelp, isOf_mk, coded_nil, true_and]
  · exact coded_nil

theorem coded_retention (j : Job) : Coded [.invalidRetention] (retention j) := by
  unfold retention
  split <;> simp

theorem coded_executorParameter (j : Job) (use : ExecutorUse) :
    Coded [.undefinedExecutor] (executorParameter s j use) := by
  unfold executorParameter
  repeat' split
  all_goals simp

theorem coded_resourceClass (e : Executor) (valid : List String) (context : String) :
    Coded [.invalidResourceClass] (resourceClass e valid context) := by
  simp [resourceClass]

private theorem coded_macosExecutor (e : Executor) (xcode : String) (range : Range) :
    Coded [.invalidResourceClass, .invalidXcode] (macosExecutor e xcode range) := by
  have hclass : ∀ valid context, Coded [.invalidResourceClass, .invalidXcode] (resourceClass e valid context) :=
    fun valid context => (coded_resourceClass e valid context).mono (by simp)
  simp [macosExecutor, hclass]

private theorem coded_windowsExecutor (e : Executor) (image : String) (range : Range) :
    Coded [.invalidResourceClass, .invalidImage] (windowsExecutor e image range) := by
  have hclass : ∀ valid context, Coded [.invalidResourceClass, .invalidImage] (resourceClass e valid context) :=
    fun valid context => (coded_resourceClass e valid context).mono (by simp)
  simp [windowsExecutor, hclass]

private theorem isOf_imageOfOtherClass (codes : List Code) (e : Executor) (m : Machine) :
    isOf codes (imageOfOtherClass e m) = codes.contains .invalidImage := by
  unfold imageOfOtherClass
  dsimp only
  split <;> rfl

private theorem coded_machineExecutor (e : Executor) (m : Machine) :
    Coded [.deprecatedKey, .invalidResourceClass, .invalidImage] (machineExecutor s e m) := by
  unfold machineExecutor
  repeat' split
  all_goals simp [unknownResourceClass, isOf_imageOfOtherClass]

private theorem coded_image (spec : ImageSpec) : Coded [.deprecatedImage, .invalidImage] (findings (image s spec)) := by
  simp [image, retiredImage]

/-- The kinds of findings about executors. -/
def executorCodes : List Code :=
  [.deprecatedKey, .deprecatedImage, .invalidResourceClass, .invalidImage, .invalidXcode]

theorem coded_executor (e : Executor) : Coded executorCodes (findings (executor s e)) := by
  unfold executor
  split
  · simp only [findings_append, findings_map_finding, findings_flatMap, coded_append, coded_flatMap]
    exact ⟨(coded_resourceClass _ _ _).mono (by simp [executorCodes]),
      fun spec _ => (coded_image spec).mono (by simp [executorCodes])⟩
  · simpa using (coded_machineExecutor _ _).mono (by simp [executorCodes])
  · simpa using (coded_macosExecutor _ _ _).mono (by simp [executorCodes])
  · simpa using (coded_windowsExecutor _ _ _).mono (by simp [executorCodes])
  · exact coded_nil

theorem coded_executors : Coded executorCodes (findings (executors s)) := by
  simp only [executors, findings_flatMap, coded_flatMap]
  exact fun e _ => coded_executor e

private theorem isOf_offerVersions (codes : List Code) (use : OrbUse) (current : String)
    (offers : List (String × String))
    (d : Diagnostic) : isOf codes (offerVersions use current offers d) = isOf codes d := by
  unfold offerVersions
  generalize ([] : List String) = offered
  induction offers generalizing d offered with
  | nil => rfl
  | cons offer offers ih =>
    rw [List.foldl_cons]
    dsimp only
    split <;> simp only [ih, isOf_withAction]

private theorem coded_orbUpdate (use : OrbUse) (current : String) (newest : NewestVersions) :
    Coded [.orbUpdate] (orbUpdate use current newest) := by
  unfold orbUpdate
  split
  · exact coded_nil
  · rw [coded_cons, isOf_offerVersions]
    exact ⟨rfl, coded_nil⟩

private theorem coded_orbVersion (use : OrbUse) : Coded [.orbUpdate] (orbVersion s use) := by
  unfold orbVersion
  repeat' split
  all_goals simp [coded_orbUpdate]

/-- The warning about an orb that nothing refers to. -/
def unusedOrb (s : Scope) (use : OrbUse) : List Diagnostic :=
  if s.settings.findsUnused && !isOrbUsed s.document use.name then
    [unused .warning "Orb is unused" use.nameRange]
  else []

/-- What is found about an orb that is not about its use is about its contents or its version. -/
theorem orb_eq_unusedOrb_append (use : OrbUse) :
    ∃ rest, orb s use = unusedOrb s use ++ rest ∧ Coded [.undefinedOrb, .orbUnavailable, .orbUpdate] rest := by
  have hfailure : ∀ failure, Coded [.undefinedOrb, .orbUnavailable, .orbUpdate] [orbFailure use failure] := by
    intro failure
    cases failure <;> simp [orbFailure]
  have hversion : Coded [.undefinedOrb, .orbUnavailable, .orbUpdate] (orbVersion s use) :=
    (coded_orbVersion use).mono (by simp)
  refine ⟨_, rfl, ?_⟩
  cases s.failures.get? use.name <;> simp [hfailure, hversion]

private theorem coded_orb (use : OrbUse) : Coded [.unused, .undefinedOrb, .orbUnavailable, .orbUpdate] (orb s use) := by
  obtain ⟨rest, heq, hrest⟩ := orb_eq_unusedOrb_append (s := s) use
  rw [heq, coded_append]
  exact ⟨by simp [unusedOrb], hrest.mono (by simp)⟩

theorem coded_orbs : Coded [.unused, .undefinedOrb, .orbUnavailable, .orbUpdate] (findings (orbs s)) := by
  simp [orbs, coded_orb]

theorem coded_anchors : Coded [.unused] (findings (anchors s)) := by
  simp [anchors]

private theorem coded_sharedNames (ds : List Definition) : Coded [.nameCollision] (sharedNames ds) := by
  induction ds with
  | nil => exact coded_nil
  | cons first rest ih => simp [sharedNames, sharedName, ih]

theorem coded_names : Coded [.nameCollision] (findings (names s)) := by
  simpa [names] using coded_sharedNames _

private theorem coded_undefinedReference (r : Reference) (range : Range) :
    Coded [.undefinedParameter] (undefinedReference s r range) := by
  unfold undefinedReference
  split <;> simp

theorem coded_references : Coded [.undefinedParameter] (findings (references s)) := by
  simp [references, coded_undefinedReference]

theorem coded_shape (loader : Load.Loader) (schema : Option Schema) :
    Coded [.undecodable, .schemaViolation] (findings (shape loader schema s)) := by
  unfold shape
  repeat' split
  · exact coded_nil
  · exact coded_nil
  · simp [undecodable]
  · rw [findings_map]
    intro d hd
    obtain ⟨v, -, rfl⟩ := List.mem_map.mp hd
    simp [violation]

private theorem isOf_offerTags (codes : List Code) (spec : ImageSpec) (tags : List String) (d : Diagnostic) :
    isOf codes (offerTags spec tags d) = isOf codes d := by
  unfold offerTags
  generalize (tags.filter (!·.isEmpty)).take maxOfferedTags = offered
  induction offered generalizing d with
  | nil => rfl
  | cons tag offered ih => rw [List.foldl_cons, ih, isOf_withAction]

private theorem coded_imageTags (spec : ImageSpec) (tags : List String) :
    Coded [.imageNotFound, .invalidImage] (imageTags spec tags) := by
  unfold imageTags
  repeat' split
  all_goals simp [isOf_offerTags]

end Check

namespace Analyzer

open Check

/-- The kinds of findings that collaborators have. -/
def answerCodes : List Code := [.imageNotFound, .invalidImage, .shellFinding]

variable (a : Analyzer) (s : Session)

theorem coded_checkImage (spec : ImageSpec) : Coded answerCodes (a.checkImage s spec).1 := by
  unfold checkImage
  repeat' split
  · exact coded_nil
  · simp [imageNotFound, answerCodes]
  · exact coded_nil
  · exact (coded_imageTags _ _).mono (by simp [answerCodes])

theorem coded_lintScript (run : Run) : Coded answerCodes (a.lintScript s run).1 := by
  unfold lintScript
  split
  · dsimp only
    split
    · exact coded_map.mpr fun finding _ => rfl
    · exact coded_nil
  · exact coded_nil

/-- What is found of a kind that collaborators do not have is what the checks themselves find of it. -/
theorem filter_answers {p : Diagnostic → Bool} (hp : ∀ d, isOf answerCodes d = true → p d = false)
    (notices : List Notice) : (a.answers s notices).1.filter p = (findings notices).filter p := by
  have hanswered : ∀ ds, Coded answerCodes ds → ds.filter p = [] :=
    fun ds hds => List.filter_eq_nil_iff.mpr fun d hd => by simp [hp d (hds d hd)]
  induction notices generalizing s with
  | nil => rfl
  | cons notice notices ih =>
    rw [answers]
    dsimp only
    rw [List.filter_append, ih]
    cases notice with
    | finding d =>
      rw [findings_cons_finding, ← List.singleton_append, List.filter_append]
      rfl
    | image spec => simp [answer, findings, hanswered _ (coded_checkImage a s spec)]
    | script run => simp [answer, findings, hanswered _ (coded_lintScript a s run)]

end Analyzer

end PipelineLint
