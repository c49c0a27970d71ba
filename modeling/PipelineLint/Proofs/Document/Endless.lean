import PipelineLint.Concrete.Grammar.Stream
import PipelineLint.Document.Parse
import PipelineLint.Proofs.Document.Calls

/-! # Documents that cannot be read to an end

The sections of a document start calls that read steps and values. Everything else that is read of a
document goes along its pairs and items only. So a document is read to an end just if none of these calls
is circular and the bodies of its orbs are read to an end.

Each call goes down from the values that it is about, or stays at one of them and comes nearer to it. So a
call that leads back to itself is about a value that contains itself, which takes an alias.
-/

namespace PipelineLint.Read

namespace Call

open Yaml Relation

variable {v : View} {c d : Call}

/-- How far a call is from the nodes that it is about. -/
private def distance : Call → Nat
  | .assignments _ => 2
  | .assignment _ => 1
  | _ => 0

/-- Each root of the second call lies below a root of the first one, or is one and the second call is
nearer to it. -/
private def Descends (v : View) (c d : Call) : Prop :=
  ∀ x ∈ d.roots, ∃ y ∈ c.roots, v.Contains y x ∨ y = x ∧ d.distance < c.distance

private theorem descends_assignments {n mapping : Node} {ps : List Pair} (hm : v.Reaches n mapping)
    (hps : ∀ p ∈ ps, v.PairBelow mapping p) :
    ∀ x ∈ (Call.assignments ps).roots, v.Contains n x := by
  intro x hx
  obtain ⟨p, hp, hraw⟩ := List.mem_filterMap.mp hx
  exact ((hps p hp).above hm).rawValue hraw

private theorem descends_of_makes (h : Makes v c d) : Descends v c d := by
  have hbelow : ∀ {ps : List Pair} {m : Node}, ps ⊆ v.pairs m → ∀ p ∈ ps, v.PairBelow m p :=
    fun hps p hp => View.below_of_mem_pairs (hps hp)
  intro x hx
  cases c with
  | steps n =>
    obtain ⟨i, hi, rfl⟩ := mem_next_steps h
    exact ⟨n, List.mem_cons_self, .inl (hi.value (Option.mem_toList.mp hx))⟩
  | listItems n =>
    obtain ⟨i, hi, rfl⟩ := mem_next_listItems h
    exact ⟨n, List.mem_cons_self, .inl (hi.value (Option.mem_toList.mp hx))⟩
  | step i =>
    obtain ⟨value, inner, hvalue, hinner, hd⟩ := mem_next_step h
    refine ⟨value, Option.mem_toList.mpr hvalue, .inl ?_⟩
    rcases hd with rfl | rfl
    · exact List.mem_singleton.mp hx ▸ hinner
    · exact List.mem_singleton.mp hx ▸ hinner
  | conditional n =>
    obtain ⟨value, hvalue, rfl⟩ := mem_next_conditional h
    exact ⟨n, List.mem_cons_self, .inl (List.mem_singleton.mp hx ▸ hvalue)⟩
  | invocation n =>
    obtain ⟨mapping, hm, rfl⟩ := mem_next_invocation h
    exact ⟨n, List.mem_cons_self,
      .inl (descends_assignments hm (hbelow (List.filter_subset_self _)) x hx)⟩
  | assignments ps =>
    obtain ⟨p, hp, rfl⟩ := mem_next_assignments h
    exact ⟨x, List.mem_filterMap.mpr ⟨p, hp, Option.mem_toList.mp hx⟩, .inr ⟨rfl, Nat.lt_succ_self 1⟩⟩
  | assignment p =>
    obtain ⟨raw, hraw, hd⟩ := mem_next_assignment h
    refine ⟨raw, Option.mem_toList.mpr hraw, ?_⟩
    rcases hd with rfl | ⟨content, hc, rfl⟩
    · exact .inr ⟨(List.mem_singleton.mp hx).symm, Nat.zero_lt_one⟩
    · exact .inl (descends_assignments hc (hbelow (List.filter_subset_self _)) x hx)

private theorem Descends.trans {e : Call} (h : Descends v c d) (h' : Descends v d e) :
    Descends v c e := by
  intro x hx
  obtain ⟨y, hy, hyx⟩ := h' x hx
  obtain ⟨z, hz, hzy⟩ := h y hy
  refine ⟨z, hz, ?_⟩
  rcases hyx with hyx | ⟨rfl, hlt⟩
  · rcases hzy with hzy | ⟨rfl, -⟩
    · exact .inl (hzy.trans hyx)
    · exact .inl hyx
  · rcases hzy with hzy | ⟨rfl, hlt'⟩
    · exact .inl hzy
    · exact .inr ⟨rfl, Nat.lt_trans hlt hlt'⟩

private theorem descends_of_transGen (h : TransGen (Makes v) c d) : Descends v c d := by
  induction h with
  | single h => exact descends_of_makes h
  | tail _ h ih => exact ih.trans (descends_of_makes h)

private theorem exists_root_of_makes (h : Makes v c d) (hc : ∀ ps, c ≠ .assignments ps) :
    ∃ n, c.roots = [n] := by
  cases c with
  | step i =>
    obtain ⟨value, -, hvalue, -⟩ := mem_next_step h
    exact ⟨value, by simp [roots, hvalue]⟩
  | assignment p =>
    obtain ⟨raw, hraw, -⟩ := mem_next_assignment h
    exact ⟨raw, by simp [roots, hraw]⟩
  | assignments ps => exact absurd rfl (hc ps)
  | steps n | conditional n | invocation n | listItems n => exact ⟨n, rfl⟩

/-- A circular call is about a value below which there is one that contains itself. -/
theorem Circular.contains_itself (h : c.Circular v) :
    ∃ root ∈ c.roots, ∃ n, v.Reaches root n ∧ v.Contains n n := by
  obtain ⟨d, hcd, hd⟩ := h
  -- The assignments on a cycle make one of their assignments, which is on the cycle too.
  have hcycle : ∃ e, ReflTransGen (Makes v) c e ∧ TransGen (Makes v) e e ∧
      ∀ ps, e ≠ .assignments ps := by
    by_cases has : ∃ ps, d = .assignments ps
    · obtain ⟨ps, rfl⟩ := has
      obtain ⟨e, hde, hed⟩ := TransGen.head'_iff.mp hd
      obtain ⟨p, -, rfl⟩ := mem_next_assignments hde
      exact ⟨.assignment p, hcd.tail hde, .tail' hed hde, nofun⟩
    · exact ⟨d, hcd, hd, fun ps hps => has ⟨ps, hps⟩⟩
  obtain ⟨e, hce, he, hnot⟩ := hcycle
  obtain ⟨f, hef, -⟩ := TransGen.head'_iff.mp he
  obtain ⟨n, hn⟩ := exists_root_of_makes hef hnot
  have hself : v.Contains n n := by
    obtain ⟨y, hy, hyn⟩ := descends_of_transGen he n (by simp [hn])
    rw [hn, List.mem_singleton] at hy
    subst hy
    exact hyn.resolve_right fun h => Nat.lt_irrefl _ h.2
  rcases reflTransGen_iff_eq_or_transGen.mp hce with rfl | hce
  · exact ⟨n, by simp [hn], n, .refl, hself⟩
  · obtain ⟨root, hroot, hreach⟩ := descends_of_transGen hce n (by simp [hn])
    refine ⟨root, hroot, n, ?_, hself⟩
    rcases hreach with h | ⟨rfl, -⟩
    · exact h.to_reflTransGen
    · exact .refl

end Call

open Yaml Reads Relation

variable (v : View)

def AllEnd (calls : List Call) : Prop := ∀ c ∈ calls, ¬ c.Circular v

def defaultCalls (p : Pair) : List Call :=
  match p.value.filter fun value => (v.sequence? value).isSome with
  | none => []
  | some value => ((v.items value).filter (canBeStep v)).map .step

def parameterCalls (p : Pair) : List Call :=
  match p.key, p.value.bind v.mapping? with
  | some _, some body =>
    if v.textOrEmpty (v.field? body "type") = "steps" then
      ((v.pairs body).filter fun q => v.keyText q = "default").flatMap (defaultCalls v)
    else []
  | _, _ => []

def parametersCalls (n : Node) : List Call := (v.pairs n).flatMap (parameterCalls v)

def commandFieldCalls (p : Pair) : List Call :=
  match p.value with
  | none => []
  | some value =>
    if v.keyText p = "steps" then [.steps value]
    else if v.keyText p = "parameters" then parametersCalls v value
    else []

def executorUseCalls (p : Pair) : List Call :=
  match p.value.bind v.mapping? with
  | none => []
  | some mapping => ((v.pairs mapping).filter fun q => v.keyText q ≠ "name").map .assignment

def jobFieldCalls (p : Pair) : List Call :=
  if v.keyText p = "executor" then executorUseCalls v p else commandFieldCalls v p

def executorFieldCalls (p : Pair) : List Call :=
  match p.value with
  | none => []
  | some value => if v.keyText p = "parameters" then parametersCalls v value else []

/-- The calls for a pair of a section whose value is a mapping of fields. -/
def entityCalls (fieldCalls : Pair → List Call) (p : Pair) : List Call :=
  match p.key, p.value.bind v.mapping? with
  | some _, some mapping => (v.pairs mapping).flatMap fieldCalls
  | _, _ => []

def jobUseFieldCalls (p : Pair) : List Call :=
  match p.value with
  | none => []
  | some value =>
    match v.keyText p with
    | "" | "type" | "requires" | "name" | "context" | "filters" | "branches" | "tags"
    | "max_auto_reruns" | "serial-group" => []
    | "matrix" =>
      match v.field? value "parameters" with
      | none => []
      | some inner => [.assignments (v.pairs inner)]
    | "pre-steps" | "post-steps" => [.steps value]
    | _ => [.assignment p]

def jobUseCalls (i : Item) : List Call :=
  match (i.value.bind v.mapping?).bind fun mapping => (v.pairs mapping).head? with
  | none => []
  | some first =>
    match first.value with
    | none => []
    | some body => (v.pairs body).flatMap (jobUseFieldCalls v)

def workflowFieldCalls (p : Pair) : List Call :=
  match p.value with
  | none => []
  | some value => if v.keyText p = "jobs" then (v.items value).flatMap (jobUseCalls v) else []

def workflowCalls (p : Pair) : List Call :=
  match p.key, p.value with
  | some _, some value => (v.pairs value).flatMap (workflowFieldCalls v)
  | _, _ => []

def sectionCalls (name : String) (value : Node) : List Call :=
  match name with
  | "executors" => (v.pairs value).flatMap (entityCalls v (executorFieldCalls v))
  | "commands" => (v.pairs value).flatMap (entityCalls v (commandFieldCalls v))
  | "jobs" => (v.pairs value).flatMap (entityCalls v (jobFieldCalls v))
  | "parameters" => parametersCalls v value
  | "workflows" =>
    ((v.pairs value).filter fun p => v.keyText p ≠ "version").flatMap (workflowCalls v)
  | _ => []

def startedCalls (top : Node) : List Call :=
  sectionOrder.flatMap fun name =>
    match v.field? top name with
    | none => []
    | some value => sectionCalls v name value

def orbText? (p : Pair) : Option (List Char) :=
  match p.key, p.rawValue with
  | some _, some value =>
    if value.kind = .blockNode ∧ (v.mapping? value).isSome then some (orbText v.tree.source value)
    else none
  | _, _ => none

def orbTexts (top : Node) : List (List Char) :=
  match v.field? top "orbs" with
  | none => []
  | some value => (v.pairs value).filterMap (orbText? v)

variable {v}

@[simp] theorem allEnd_nil : AllEnd v [] := fun _ h => nomatch h

@[simp] theorem allEnd_singleton {c : Call} : AllEnd v [c] ↔ ¬ c.Circular v := by simp [AllEnd]

theorem allEnd_map {α : Type} {call : α → Call} {xs : List α} :
    AllEnd v (xs.map call) ↔ ∀ x ∈ xs, ¬ (call x).Circular v :=
  List.forall_mem_map

theorem allEnd_flatMap {α : Type} {calls : α → List Call} {xs : List α} :
    AllEnd v (xs.flatMap calls) ↔ ∀ x ∈ xs, AllEnd v (calls x) := by
  simp only [AllEnd, List.mem_flatMap]
  exact ⟨fun h x hx c hc => h c ⟨x, hx, hc⟩, fun h c ⟨x, hx, hc⟩ => h x hx c hc⟩

theorem returns_stepsDefault_iff {n : Node} :
    Returns (stepsDefault v n) ↔ AllEnd v (((v.items n).filter (canBeStep v)).map .step) := by
  rw [stepsDefault, returns_bind_of_returns (by simp), returns_each, allEnd_map]
  simp only [List.mem_filter, and_imp]
  refine forall₂_congr fun i _ => ?_
  by_cases h : canBeStep v i <;> simp [h, returns_readStep_iff]

theorem returns_defaultFor_iff {type : ParameterType} {p : Pair} :
    Returns (defaultFor v type p) ↔ AllEnd v (if type.word = "steps" then defaultCalls v p else []) := by
  cases type with
  | steps steps =>
    simp only [defaultFor, defaultCalls, ParameterType.word, if_true]
    cases p.value.filter fun value => (v.sequence? value).isSome <;> simp [returns_stepsDefault_iff]
  | _ => simp [defaultFor, ParameterType.word]

theorem always_word_defaultFor {type : ParameterType} {p : Pair} :
    Always (fun found => ∀ type' ∈ found, type'.word = type.word) (defaultFor v type p) := by
  cases type with
  | steps steps =>
    rw [defaultFor]
    split
    · exact always_pure (by simp)
    · exact Always.bind (P := fun _ => True) (fun _ _ _ => trivial)
        fun steps _ => always_pure (by simp [ParameterType.word])
  | _ => exact always_pure (by simp [ParameterType.word])

theorem returns_parameterField_iff {parameter : Parameter} {p : Pair} :
    Returns (parameterField v parameter p) ↔
      AllEnd v (if parameter.type.word = "steps" ∧ v.keyText p = "default" then defaultCalls v p
        else []) := by
  rw [parameterField]
  split
  · rename_i h
    simp [h]
  · rename_i h
    cases parameter.type <;> cases p.value <;> simp [h]
  · rename_i h
    rw [returns_bind_of_returns, returns_defaultFor_iff, h]
    · simp
    · rintro (_ | type) <;> simp
  · rename_i h
    have hne : v.keyText p ≠ "default" := h
    simp [hne]

theorem always_word_parameterField {parameter : Parameter} {p : Pair} :
    Always (fun parameter' => parameter'.type.word = parameter.type.word)
      (parameterField v parameter p) := by
  rw [parameterField]
  split
  · exact always_pure rfl
  · split
    · rename_i ht _
      exact always_pure (by rw [ht]; rfl)
    · exact always_pure rfl
  · refine Always.bind always_word_defaultFor fun found hfound => ?_
    cases found with
    | none => exact always_pure rfl
    | some type => exact always_pure (hfound type rfl)
  · exact always_pure rfl

theorem word_of_ofWord? {word : String} {type : ParameterType}
    (h : ParameterType.ofWord? word = some type) : type.word = word := by
  rw [ParameterType.ofWord?.eq_def] at h
  split at h <;> first | (obtain rfl := Option.some.inj h; rfl) | cases h

theorem returns_parameter_iff {p : Pair} : Returns (parameter v p) ↔ AllEnd v (parameterCalls v p) := by
  rw [parameter, parameterCalls]
  cases p.key with
  | none => simp
  | some key =>
    cases p.value.bind v.mapping? with
    | none => simp
    | some body =>
      have hfield : (v.find? body "type").bind (·.value) = v.field? body "type" := rfl
      simp only [hfield]
      cases ht : ParameterType.ofWord? (v.textOrEmpty (v.field? body "type")) with
      | none =>
        have hne : v.textOrEmpty (v.field? body "type") ≠ "steps" := by
          intro h
          simp [h, ParameterType.ofWord?] at ht
        simp [hne]
      | some type =>
        have hword := word_of_ofWord? ht
        rw [returns_bind_of_returns fun declared => by cases declared.strayDefault? <;> simp,
          returns_through_of (fun declared => declared.type.word = type.word)
            (fun declared hd q _ => by rw [returns_parameterField_iff, hd, hword])
            (fun declared q hd => by rw [← hd]; exact always_word_parameterField) rfl]
        by_cases hs : v.textOrEmpty (v.field? body "type") = "steps"
        · simp only [hs, if_true, true_and, allEnd_flatMap, List.mem_filter, decide_eq_true_eq, and_imp]
          refine forall₂_congr fun q _ => ?_
          by_cases hq : v.keyText q = "default" <;> simp [hq]
        · simp [hs]

theorem returns_parameters_iff {n : Node} :
    Returns (parameters v n) ↔ AllEnd v (parametersCalls v n) := by
  rw [parameters, returns_bind_of_returns (by simp), returns_each, parametersCalls, allEnd_flatMap]
  simp only [returns_parameter_iff]

theorem returns_commandField_iff {command : Command} {p : Pair} :
    Returns (commandField v command p) ↔ AllEnd v (commandFieldCalls v p) := by
  rw [commandField, commandFieldCalls]
  cases p.value with
  | none => simp
  | some value =>
    dsimp only
    split
    · rename_i h
      simp [h]
    · rename_i h
      simp [h, returns_readSteps_iff]
    · rename_i h
      simp [h, returns_parameters_iff]
    · rename_i hs hp
      have hsteps : v.keyText p ≠ "steps" := hs
      have hparameters : v.keyText p ≠ "parameters" := hp
      simp [hsteps, hparameters]

theorem returns_command_iff {p : Pair} :
    Returns (command v p) ↔ AllEnd v (entityCalls v (commandFieldCalls v) p) := by
  rw [command, entityCalls]
  cases p.key with
  | none => simp
  | some key =>
    cases p.value.bind v.mapping? with
    | none => simp
    | some mapping =>
      dsimp only
      rw [returns_bind_of_returns (by simp), allEnd_flatMap]
      refine returns_through fun found q _ => ?_
      exact returns_commandField_iff

theorem returns_commands_iff {n : Node} : Returns (commands v n) ↔
    AllEnd v ((v.pairs n).flatMap (entityCalls v (commandFieldCalls v))) := by
  rw [commands, allEnd_flatMap, returns_through]
  intro found p _
  rw [returns_bind_of_returns, returns_command_iff]
  rintro (_ | c)
  · simp
  · by_cases h : c.name.isEmpty <;> simp [h, returns_insertFirst]

theorem returns_executorUse_iff {p : Pair} :
    Returns (executorUse v p) ↔ AllEnd v (executorUseCalls v p) := by
  rw [executorUse, executorUseCalls]
  cases p.value with
  | none => simp
  | some value =>
    rw [Option.bind_some]
    dsimp only
    cases v.mapping? value with
    | none => simp
    | some mapping =>
      dsimp only
      simp only [allEnd_map, List.mem_filter, decide_eq_true_eq, and_imp]
      refine returns_through fun use q _ => ?_
      by_cases h : v.keyText q = "name"
      · simp [h]
      · rw [if_neg h, returns_bind_of_returns, returns_readAssignment_iff]
        · simp [h]
        · rintro (_ | a) <;> simp

theorem returns_jobField_iff {job : Job} {p : Pair} :
    Returns (jobField v job p) ↔ AllEnd v (jobFieldCalls v p) := by
  rw [jobField, jobFieldCalls]
  by_cases he : v.keyText p = "executor"
  · simp [he, returns_executorUse_iff]
  · simp only [he, if_false, commandFieldCalls]
    cases p.value with
    | none => simp
    | some value =>
      dsimp only
      split
      case h_5 h => split <;> simp [h]
      case h_7 h => simp [h, returns_readSteps_iff]
      case h_8 h => simp [h, returns_parameters_iff]
      case h_12 hs hp _ _ _ =>
        have hsteps : v.keyText p ≠ "steps" := hs
        have hparameters : v.keyText p ≠ "parameters" := hp
        simp [hsteps, hparameters]
      all_goals
        rename_i h
        simp [h]

theorem returns_job_iff {p : Pair} :
    Returns (job v p) ↔ AllEnd v (entityCalls v (jobFieldCalls v) p) := by
  rw [job, entityCalls]
  cases p.key with
  | none => simp
  | some key =>
    cases p.value.bind v.mapping? with
    | none => simp
    | some mapping =>
      dsimp only
      rw [returns_bind_of_returns, allEnd_flatMap]
      · refine returns_through fun found q _ => ?_
        exact returns_jobField_iff
      · intro read
        by_cases h : hasInlineExecutor v (v.pairs mapping) <;> simp [h]

theorem returns_jobs_iff {n : Node} : Returns (jobs v n) ↔
    AllEnd v ((v.pairs n).flatMap (entityCalls v (jobFieldCalls v))) := by
  rw [jobs, allEnd_flatMap]
  refine returns_through fun found p _ => ?_
  rw [returns_bind_of_returns, returns_job_iff]
  rintro (_ | j)
  · simp
  · exact returns_insertFirst

theorem returns_executorBody_iff {mapping : Node} : Returns (executorBody v mapping) ↔
    AllEnd v ((v.pairs mapping).flatMap (executorFieldCalls v)) := by
  rw [executorBody, allEnd_flatMap]
  refine returns_through fun executor p _ => ?_
  rw [executorFieldCalls]
  by_cases h : v.keyText p = "parameters"
  · cases p.value <;> simp [h, returns_parameters_iff]
  · cases p.value <;> simp [h]

theorem returns_executors_iff {n : Node} : Returns (executors v n) ↔
    AllEnd v ((v.pairs n).flatMap (entityCalls v (executorFieldCalls v))) := by
  rw [executors, allEnd_flatMap]
  refine returns_through fun found p _ => ?_
  rw [entityCalls]
  cases p.key with
  | none => simp
  | some key =>
    cases p.value.bind v.mapping? with
    | none => simp
    | some mapping =>
      dsimp only
      rw [returns_bind_of_returns fun _ => returns_insertFirst, returns_executorBody_iff]

theorem returns_jobUseField_iff {use : JobUse} {p : Pair} :
    Returns (jobUseField v use p) ↔ AllEnd v (jobUseFieldCalls v p) := by
  rw [jobUseField, jobUseFieldCalls]
  cases p.value with
  | none => simp
  | some value =>
    dsimp only
    split
    case h_9 h =>
      rw [h]
      cases v.field? value "parameters" <;> simp [returns_readAssignments_iff]
    case h_10 h => simp [h, returns_readSteps_iff]
    case h_11 h => simp [h, returns_readSteps_iff]
    case h_14 =>
      rw [returns_bind_of_returns, returns_readAssignment_iff]
      · simp [*]
      · rintro (_ | a) <;> simp
    all_goals
      rename_i h
      simp [h]

theorem returns_jobUse_iff {i : Item} : Returns (jobUse v i) ↔ AllEnd v (jobUseCalls v i) := by
  rw [jobUse, jobUseCalls]
  cases i.value with
  | none => simp
  | some value =>
    rw [Option.bind_some]
    dsimp only
    cases v.mapping? value with
    | none => simp
    | some mapping =>
      rw [Option.bind_some]
      dsimp only
      cases (v.pairs mapping).head? with
      | none => simp
      | some first =>
        dsimp only
        cases first.value with
        | none => simp
        | some body =>
          dsimp only
          rw [allEnd_flatMap]
          refine returns_through fun use q _ => ?_
          exact returns_jobUseField_iff

theorem returns_workflowField_iff {workflow : Workflow} {p : Pair} :
    Returns (workflowField v workflow p) ↔ AllEnd v (workflowFieldCalls v p) := by
  rw [workflowField, workflowFieldCalls]
  cases p.value with
  | none => simp
  | some value =>
    dsimp only
    split
    case h_1 h =>
      rw [returns_bind_of_returns (by simp), returns_each, if_pos h, allEnd_flatMap]
      simp only [returns_jobUse_iff]
    case h_2 h => simp [h]
    case h_3 hjobs _ =>
      have hne : v.keyText p ≠ "jobs" := hjobs
      simp [hne]

theorem returns_workflow_iff {p : Pair} :
    Returns (workflow v p) ↔ AllEnd v (workflowCalls v p) := by
  rw [workflow, workflowCalls]
  cases p.key with
  | none => simp
  | some key =>
    cases p.value with
    | none => simp
    | some value =>
      dsimp only
      rw [returns_bind_of_returns (by simp), allEnd_flatMap]
      refine returns_through fun workflow q _ => ?_
      exact returns_workflowField_iff

theorem returns_workflows_iff {version : Float} {n : Node} : Returns (workflows v version n) ↔
    AllEnd v (((v.pairs n).filter fun p => v.keyText p ≠ "version").flatMap (workflowCalls v)) := by
  rw [workflows, allEnd_flatMap]
  simp only [List.mem_filter, decide_eq_true_eq, and_imp]
  refine returns_through fun found p _ => ?_
  by_cases h : v.keyText p = "version"
  · by_cases hversion : version >= workflowVersionEnd <;> simp [h, hversion]
  · simp only [h, if_false]
    rw [returns_bind_of_returns, returns_workflow_iff]
    · simp [h]
    · rintro (_ | w)
      · simp
      · exact returns_insertFirst

theorem returns_orb_iff {nested : List Char → Except Endless Document} {p : Pair} :
    Returns (orb v nested p) ↔ ∀ text ∈ orbText? v p, ∃ d, nested text = .ok d := by
  rw [orb, orbText?]
  cases p.key with
  | none => simp
  | some key =>
    cases p.rawValue with
    | none => simp
    | some value =>
      dsimp only
      split
      case h_1 h => simp [h]
      case h_2 h =>
        cases hm : v.mapping? value with
        | none => simp [h]
        | some mapping =>
          simp only [h, Option.isNone_some, Option.isSome_some]
          cases hn : nested (orbText v.tree.source value) with
          | error e => simp [hn]
          | ok d => simp [hn]
      case h_3 _ h =>
        have hne : value.kind ≠ .blockNode := h
        simp [hne]

theorem returns_orbs_iff {nested : List Char → Except Endless Document} {n : Node} :
    Returns (orbs v nested n) ↔
      ∀ text ∈ (v.pairs n).filterMap (orbText? v), ∃ d, nested text = .ok d := by
  have hpairs : Returns (orbs v nested n) ↔
      ∀ p ∈ v.pairs n, ∀ text ∈ orbText? v p, ∃ d, nested text = .ok d := by
    refine returns_through fun found p _ => ?_
    rw [returns_bind_of_returns, returns_orb_iff]
    rintro (_ | ⟨use, _ | inner⟩) <;> simp
  rw [hpairs]
  simp only [List.mem_filterMap]
  exact ⟨fun h text ⟨p, hp, ht⟩ => h p hp text ht, fun h p hp text ht => h text ⟨p, hp, ht⟩⟩

theorem returns_readSection_iff {nested : List Char → Except Endless Document} {d : Document}
    {name : String} {p : Pair} (hname : name ∈ sectionOrder) :
    Returns (readSection v nested d name p) ↔
      ∀ value ∈ p.value, AllEnd v (sectionCalls v name value) ∧ (name = "orbs" →
        ∀ text ∈ (v.pairs value).filterMap (orbText? v), ∃ d, nested text = .ok d) := by
  simp only [sectionOrder, List.mem_cons, List.not_mem_nil, or_false] at hname
  cases hp : p.value with
  | none =>
    rcases hname with rfl | rfl | rfl | rfl | rfl | rfl | rfl | rfl <;>
      simp [readSection, hp, emptySection]
  | some value =>
    rcases hname with rfl | rfl | rfl | rfl | rfl | rfl | rfl | rfl
    · simp [readSection, sectionCalls]
    · simp [readSection, sectionCalls]
    · simp only [readSection, hp, sectionCalls, Option.mem_some]
      rw [returns_bind_of_returns (by simp), returns_orbs_iff]
      simp
    · simp only [readSection, hp, sectionCalls, Option.mem_some]
      rw [returns_bind_of_returns (by simp), returns_executors_iff]
      simp
    · simp only [readSection, hp, sectionCalls, Option.mem_some]
      rw [returns_bind_of_returns (by simp), returns_commands_iff]
      simp
    · simp only [readSection, hp, sectionCalls, Option.mem_some]
      rw [returns_bind_of_returns (by simp), returns_jobs_iff]
      simp
    · simp only [readSection, hp, sectionCalls, Option.mem_some]
      rw [returns_bind_of_returns (by simp), returns_parameters_iff]
      simp
    · simp only [readSection, hp, sectionCalls, Option.mem_some]
      rw [returns_bind_of_returns (by simp), returns_workflows_iff]
      simp

theorem returns_readEntities_iff {nested : List Char → Except Endless Document} {d : Document}
    {top : Node} : Returns (readEntities v nested d top) ↔
      AllEnd v (startedCalls v top) ∧ ∀ text ∈ orbTexts v top, ∃ d, nested text = .ok d := by
  have hsections : Returns (readEntities v nested d top) ↔ ∀ name ∈ sectionOrder,
      ∀ value ∈ v.field? top name, AllEnd v (sectionCalls v name value) ∧ (name = "orbs" →
        ∀ text ∈ (v.pairs value).filterMap (orbText? v), ∃ d, nested text = .ok d) := by
    rw [readEntities, returns_bind_of_returns (by simp)]
    refine returns_through fun d name hname => ?_
    rw [View.field?, View.find?]
    cases (v.pairs top).find? fun p => v.keyText p == name with
    | none => simp
    | some p => exact returns_readSection_iff hname
  have hcalls : AllEnd v (startedCalls v top) ↔ ∀ name ∈ sectionOrder, ∀ value ∈ v.field? top name,
      AllEnd v (sectionCalls v name value) := by
    rw [startedCalls, allEnd_flatMap]
    refine forall₂_congr fun name _ => ?_
    cases v.field? top name <;> simp
  have hbodies : (∀ text ∈ orbTexts v top, ∃ d, nested text = .ok d) ↔ ∀ value ∈ v.field? top "orbs",
      ∀ text ∈ (v.pairs value).filterMap (orbText? v), ∃ d, nested text = .ok d := by
    rw [orbTexts]
    cases v.field? top "orbs" <;> simp
  rw [hsections, hcalls, hbodies]
  constructor
  · intro h
    exact ⟨fun name hname value hvalue => (h name hname value hvalue).1,
      fun value hvalue => (h "orbs" (by simp [sectionOrder]) value hvalue).2 rfl⟩
  · rintro ⟨hcalls, hbodies⟩ name hname value hvalue
    exact ⟨hcalls name hname value hvalue, by rintro rfl; exact hbodies value hvalue⟩

theorem exists_ofTreeWith_iff {nested : List Char → Except Endless Document} {kind : DocumentKind}
    {tree : Tree} : (∃ d, ofTreeWith nested kind tree = .ok d) ↔ ∀ top ∈ tree.top?,
      AllEnd (View.ofTree tree) (startedCalls (View.ofTree tree) top) ∧
        ∀ text ∈ orbTexts (View.ofTree tree) top, ∃ d, nested text = .ok d := by
  have hcontents : (∃ d, ofTreeWith nested kind tree = .ok d) ↔ Returns (contents nested kind tree) := by
    rw [ofTreeWith]
    constructor
    · rintro ⟨d, hd⟩
      split at hd
      · cases hd
      · rename_i read findings hread
        exact ⟨_, hread⟩
    · rintro ⟨⟨read, findings⟩, hread⟩
      exact ⟨_, by rw [hread]⟩
  rw [hcontents, contents]
  cases tree.top? with
  | none => simp
  | some top =>
    simp only [Option.mem_some_iff, forall_eq']
    exact returns_readEntities_iff

/-- Whatever the tree and its anchors, a call ends just if it is not circular; then fuel that the tree
bounds is enough. A circular call ends with no fuel; it is about a value below which there is one that
contains itself. A document is read to an end just if none of the calls that its sections start is
circular and the bodies of its orbs are read to an end. -/
theorem reading_ends_unless_circular (v : View) (top : Node) (d : Document) (kind : DocumentKind)
    (tree : Tree) (nested : List Char → Except Endless Document) :
    (∀ c : Call, (c.EndsWithin v (c.depth v) ↔ ¬ c.Circular v) ∧
      (c.Circular v → (∀ fuel, ¬ c.EndsWithin v fuel) ∧
        ∃ root ∈ c.roots, ∃ n, v.Reaches root n ∧ v.Contains n n)) ∧
    (Returns (readEntities v nested d top) ↔
      AllEnd v (startedCalls v top) ∧ ∀ text ∈ orbTexts v top, ∃ d, nested text = .ok d) ∧
    ((∃ d, ofTreeWith nested kind tree = .ok d) ↔ ∀ top ∈ tree.top?,
      AllEnd (View.ofTree tree) (startedCalls (View.ofTree tree) top) ∧
        ∀ text ∈ orbTexts (View.ofTree tree) top, ∃ d, nested text = .ok d) := by
  refine ⟨fun c => ⟨Call.endsWithin_depth_iff, fun hc => ?_⟩, ?_, ?_⟩
  · exact ⟨hc.not_endsWithin, hc.contains_itself⟩
  · exact returns_readEntities_iff
  · exact exists_ofTreeWith_iff

/-- A job with a conditional block whose steps are the steps of the job. -/
def selfContained : String :=
  "jobs:\n  build:\n    steps: &s\n      - when:\n          condition: true\n          steps: *s\n"

/-- There is no document of the text, since the steps of the job are circular. -/
theorem no_document_of_selfContained :
    (∀ d, Document.parse .strict selfContained.toList ≠ .ok d) ∧
      ∃ top ∈ (Grammar.strict.tree selfContained.toList).top?,
        ∃ c ∈ startedCalls (View.ofTree (Grammar.strict.tree selfContained.toList)) top,
          c.Circular (View.ofTree (Grammar.strict.tree selfContained.toList)) := by
  have hparse : (Document.parse .strict selfContained.toList).isOk = false := by decide +kernel
  have hread : (ofTreeWith (fun _ => .ok default) .config (Grammar.strict.tree selfContained.toList)).isOk =
      false := by decide +kernel
  refine ⟨fun d hd => by simp [hd, Except.isOk, Except.toBool] at hparse, ?_⟩
  by_contra hno
  have hends : ∃ d, ofTreeWith (fun _ => .ok default) .config (Grammar.strict.tree selfContained.toList) = .ok d := by
    refine exists_ofTreeWith_iff.mpr fun top htop => ⟨fun c hc hcirc => ?_, fun _ _ => ⟨_, rfl⟩⟩
    exact hno ⟨top, htop, c, hc, hcirc⟩
  obtain ⟨d, hd⟩ := hends
  simp [hd, Except.isOk, Except.toBool] at hread

end PipelineLint.Read
