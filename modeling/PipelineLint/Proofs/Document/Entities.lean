import PipelineLint.Proofs.Document.Alike

/-! # Reading the same entities

The readers of entities, from parameters to whole documents, read what corresponds in views that show the same as the
same entities.
-/

namespace PipelineLint.Read

open List (Forall₂)
open Yaml Yaml.View Reads

variable {v w : View} {R : Node → Node → Prop} {n m : Node} {p q : Pair} {i j : Item} (h : Alike v w R)
include h

private theorem canBeStep_alike (hij : ItemAlike R i j) : canBeStep v i = canBeStep w j :=
  any_eq_of_rel hij.value fun a b hab => by
    have hmapping := any_eq_of_rel (p := fun x => !(v.directPairs x).isEmpty) (q := fun y => !(w.directPairs y).isEmpty)
      (h.mapping? hab) fun x y hxy => by rw [isEmpty_directPairs_alike h hxy]
    rw [isSome_eq_of_rel (h.scalar? hab), hmapping]

private theorem stepsDefault_alike (hnm : R n m) : stepsDefault v n = stepsDefault w m := by
  rw [stepsDefault, stepsDefault]
  congr 1
  exact each_congr (h.items hnm) fun i j hij => by
    rw [canBeStep_alike h hij, readStep_alike h hij, h.itemRange hij]

private theorem defaultFor_alike (type : ParameterType) (hpq : PairAlike R p q) :
    defaultFor v type p = defaultFor w type q := by
  have hsequence : Option.Rel R (p.value.filter fun value => (v.sequence? value).isSome)
      (q.value.filter fun value => (w.sequence? value).isSome) :=
    rel_filter hpq.value fun _ _ hab => isSome_eq_of_rel (h.sequence? hab)
  unfold defaultFor
  rw [h.textOrEmpty hpq.value]
  obtain ⟨hp, hq⟩ | ⟨a, b, hp, hq, hab⟩ := rel_cases hsequence
  · rw [hp, hq]
  · rw [hp, hq]
    simp only [stepsDefault_alike h hab]

private theorem parameterField_alike (parameter : Parameter) (hpq : PairAlike R p q) :
    parameterField v parameter p = parameterField w parameter q := by
  unfold parameterField
  rw [h.keyText hpq]
  split
  · rw [map_eq_of_rel hpq.value fun _ _ => h.text]
  · obtain ⟨hp, hq⟩ | ⟨a, b, hp, hq, hab⟩ := rel_cases hpq.value
    · rw [hp, hq]
      cases parameter.type <;> rfl
    · rw [hp, hq]
      cases parameter.type <;> simp only [h.texts hab, h.range hab]
  · rw [defaultFor_alike h _ hpq, h.openRange hpq]
  · rfl

private theorem parameter_alike (hpq : PairAlike R p q) : parameter v p = parameter w q := by
  unfold parameter
  obtain ⟨hp, hq⟩ | ⟨key, key', hp, hq, hkey⟩ := rel_cases hpq.key
  · rw [hp, hq]
  obtain ⟨ha, hb⟩ | ⟨a, b, ha, hb, hab⟩ := rel_cases (rel_bind hpq.value fun _ _ => h.mapping?)
  · rw [hp, hq, ha, hb]
  have hfields (bare : Parameter) :
      through (parameterField v) bare (v.pairs a) = through (parameterField w) bare (w.pairs b) :=
    through_congr (h.pairs hab) (fun s _ _ hpq => parameterField_alike h s hpq) bare
  simp only [hp, hq, ha, hb, hfields, h.text hkey, h.range hkey, h.range hab, h.pairRange hpq]
  obtain ⟨hx, hy⟩ | ⟨typed, typed', hx, hy, htyped⟩ := rel_cases (h.find? hab "type")
  · rw [hx, hy]
    rfl
  · simp only [hx, hy, Option.bind_some, h.textOrEmpty htyped.value, isSome_eq_of_rel htyped.value, h.pairRange htyped,
      h.afterRange htyped]

theorem parameters_alike (hnm : R n m) : parameters v n = parameters w m := by
  rw [parameters, parameters, each_congr (h.pairs hnm) fun _ _ => parameter_alike h]

private theorem imageField_alike (spec : ImageSpec) (hpq : PairAlike R p q) :
    imageField v spec p = imageField w spec q := by
  rw [imageField, imageField]
  obtain ⟨hp, hq⟩ | ⟨a, b, hp, hq, hab⟩ := rel_cases hpq.value
  · rw [hp, hq]
  · simp only [hp, hq, h.keyText hpq, h.text hab, h.pairRange hpq, h.textOrTexts hab, environment_alike h hab,
      dictionary_alike h hab]

private theorem images_alike (hnm : R n m) : images v n = images w m := by
  refine filterMap_eq_of_forall₂ (h.items hnm) fun i j hij => ?_
  refine map_eq_of_rel (h.itemMapping? hij) fun a b hab => ?_
  rw [h.itemRange hij]
  exact foldl_eq_of_forall₂ (h.pairs hab) (fun s _ _ hpq => imageField_alike h s hpq) _

private theorem machine_alike (hpq : PairAlike R p q) : machine v p = machine w q := by
  rw [machine, machine, h.pairRange hpq]
  obtain ⟨hp, hq⟩ | ⟨a, b, hp, hq, hab⟩ := rel_cases hpq.value
  · rw [hp, hq]
  rw [hp, hq]
  dsimp only
  rw [← Option.not_isSome, ← Option.not_isSome, isSome_eq_of_rel (h.mapping? hab), h.text hab]
  split
  · rfl
  · refine foldl_eq_of_forall₂ (h.pairs hab) (fun s _ _ hpq => ?_) _
    simp only [h.keyText hpq, h.textOrEmpty hpq.value, h.pairRange hpq]

private theorem executorKind_alike (family : String) (hpq : PairAlike R p q) :
    executorKind v family p = executorKind w family q := by
  have hfield (key : String) := rel_bind (f := fun value => v.find? value key) (g := fun value => w.find? value key)
    hpq.value fun _ _ hab => h.find? hab key
  unfold executorKind
  split
  · rw [map_eq_of_rel hpq.value fun _ _ => images_alike h]
  · rw [machine_alike h hpq]
  · obtain ⟨hx, hy⟩ | ⟨x, y, hx, hy, hxy⟩ := rel_cases (hfield "xcode")
    · simp only [hx, hy]
    · simp only [hx, hy, h.textOrEmpty hxy.value, h.pairRange hxy]
  · obtain ⟨hx, hy⟩ | ⟨x, y, hx, hy, hxy⟩ := rel_cases (hfield "image")
    · simp only [hx, hy]
    · simp only [hx, hy, h.textOrEmpty hxy.value, h.pairRange hxy]

theorem executorField_alike (executor : Executor) (hpq : PairAlike R p q) :
    executorField v executor p = executorField w executor q := by
  simp only [executorField, h.keyText hpq, executorKind_alike h _ hpq, h.textOrEmpty hpq.value, h.pairRange hpq,
    map_eq_of_rel hpq.value fun _ _ => h.text]
  obtain ⟨hp, hq⟩ | ⟨a, b, hp, hq, hab⟩ := rel_cases hpq.value
  · rw [hp, hq]
  · simp only [hp, hq, environment_alike h hab]

private theorem inlineExecutor_alike (hnm : R n m) : inlineExecutor v n = inlineExecutor w m :=
  foldl_eq_of_forall₂ (h.pairs hnm) (fun s _ _ hpq => executorField_alike h s hpq) _

private theorem executorBody_alike (hnm : R n m) : executorBody v n = executorBody w m := by
  refine through_congr (h.pairs hnm) (fun executor p q hpq => ?_) _
  rw [h.keyText hpq, executorField_alike h executor hpq, h.pairRange hpq]
  obtain ⟨hp, hq⟩ | ⟨a, b, hp, hq, hab⟩ := rel_cases hpq.value
  · rw [hp, hq]
  · simp only [hp, hq, parameters_alike h hab]

private theorem executors_alike (hnm : R n m) : executors v n = executors w m := by
  refine through_congr (h.pairs hnm) (fun found p q hpq => ?_) _
  obtain ⟨hp, hq⟩ | ⟨key, key', hp, hq, hkey⟩ := rel_cases hpq.key
  · rw [hp, hq]
  obtain ⟨ha, hb⟩ | ⟨a, b, ha, hb, hab⟩ := rel_cases (rel_bind hpq.value fun _ _ => h.mapping?)
  · rw [hp, hq, ha, hb]
  · simp only [hp, hq, ha, hb, executorBody_alike h hab, h.text hkey, h.range hkey, h.pairRange hpq]

private theorem executorUse_alike (hpq : PairAlike R p q) : executorUse v p = executorUse w q := by
  rw [executorUse, executorUse, h.pairRange hpq]
  obtain ⟨hp, hq⟩ | ⟨a, b, hp, hq, hab⟩ := rel_cases hpq.value
  · rw [hp, hq]
  obtain ⟨ha, hb⟩ | ⟨x, y, ha, hb, hxy⟩ := rel_cases (h.mapping? hab)
  · simp only [hp, hq, ha, hb, h.text hab, h.range hab]
  simp only [hp, hq, ha, hb]
  refine through_congr (h.pairs hxy) (fun s _ _ hpq => ?_) _
  simp only [h.keyText hpq, h.textOrEmpty hpq.value, h.valueOrPairRange hpq, readAssignment_alike h hpq]

private theorem retention_alike (hnm : R n m) : retention v n = retention w m := by
  rw [retention, retention, h.range hnm]
  refine foldl_eq_of_forall₂ (h.pairs hnm) (fun s p q hpq => ?_) _
  obtain ⟨hp, hq⟩ | ⟨a, b, hp, hq, hab⟩ := rel_cases hpq.value
  · rw [hp, hq]
  · simp only [hp, hq, h.keyText hpq, h.text hab, h.pairRange hpq]

private theorem commandField_alike (command : Command) (hpq : PairAlike R p q) :
    commandField v command p = commandField w command q := by
  rw [commandField, commandField]
  obtain ⟨hp, hq⟩ | ⟨a, b, hp, hq, hab⟩ := rel_cases hpq.value
  · rw [hp, hq]
  · simp only [hp, hq, h.keyText hpq, h.text hab, h.pairRange hpq, h.range hab, readSteps_alike h hab,
      parameters_alike h hab]

private theorem command_alike (hpq : PairAlike R p q) : command v p = command w q := by
  unfold command
  obtain ⟨hp, hq⟩ | ⟨key, key', hp, hq, hkey⟩ := rel_cases hpq.key
  · rw [hp, hq]
  obtain ⟨ha, hb⟩ | ⟨a, b, ha, hb, hab⟩ := rel_cases (rel_bind hpq.value fun _ _ => h.mapping?)
  · rw [hp, hq, ha, hb]
  simp only [hp, hq, ha, hb, h.text hkey, h.range hkey, h.pairRange hpq]
  rw [through_congr (h.pairs hab) fun s _ _ hpq => commandField_alike h s hpq]

private theorem commands_alike (hnm : R n m) : commands v n = commands w m :=
  through_congr (h.pairs hnm) (fun _ _ _ hpq => by rw [command_alike h hpq]) _

private theorem jobField_alike (job : Job) (hpq : PairAlike R p q) : jobField v job p = jobField w job q := by
  simp only [jobField, h.keyText hpq, executorUse_alike h hpq, h.pairRange hpq]
  obtain ⟨hp, hq⟩ | ⟨a, b, hp, hq, hab⟩ := rel_cases hpq.value
  · rw [hp, hq]
  · simp only [hp, hq, h.text hab, h.located hab, readSteps_alike h hab, parameters_alike h hab,
      environment_alike h hab, retention_alike h hab]

private theorem hasInlineExecutor_alike {ps qs : List Pair} (hps : Forall₂ (PairAlike R) ps qs) :
    hasInlineExecutor v ps = hasInlineExecutor w qs :=
  any_eq_of_forall₂ hps fun _ _ hpq => by rw [isSome_eq_of_rel hpq.value, h.keyText hpq]

private theorem job_alike (hpq : PairAlike R p q) : job v p = job w q := by
  unfold job
  obtain ⟨hp, hq⟩ | ⟨key, key', hp, hq, hkey⟩ := rel_cases hpq.key
  · rw [hp, hq]
  obtain ⟨ha, hb⟩ | ⟨a, b, ha, hb, hab⟩ := rel_cases (rel_bind hpq.value fun _ _ => h.mapping?)
  · rw [hp, hq, ha, hb]
  simp only [hp, hq, ha, hb, h.text hkey, h.range hkey, h.pairRange hpq, hasInlineExecutor_alike h (h.pairs hab),
    inlineExecutor_alike h hab]
  rw [through_congr (h.pairs hab) fun s _ _ hpq => jobField_alike h s hpq]

private theorem jobs_alike (hnm : R n m) : jobs v n = jobs w m :=
  through_congr (h.pairs hnm) (fun _ _ _ hpq => by rw [job_alike h hpq]) _

private theorem requirementsOf_alike (hij : ItemAlike R i j) : requirementsOf v i = requirementsOf w j := by
  rw [requirementsOf, requirementsOf]
  obtain ⟨hi, hj⟩ | ⟨a, b, hi, hj, hab⟩ := rel_cases hij.value
  · rw [hi, hj]
  obtain ⟨ha, hb⟩ | ⟨x, y, ha, hb, hxy⟩ := rel_cases (h.mapping? hab)
  · simp only [hi, hj, ha, hb, h.text hab, h.itemRange hij]
  simp only [hi, hj, ha, hb]
  refine map_eq_of_forall₂ (h.pairs hxy) fun p q hpq => ?_
  obtain ⟨hp, hq⟩ | ⟨s, t, hp, hq, hst⟩ := rel_cases hpq.value
  · simp only [hp, hq, h.keyText hpq, h.keyRange hpq, h.openRange hpq]
  · simp only [hp, hq, h.keyText hpq, h.keyRange hpq, h.locatedTexts hst, h.range hst]

private theorem requirements_alike (hnm : R n m) : requirements v n = requirements w m :=
  flatMap_eq_of_forall₂ (h.items hnm) fun _ _ => requirementsOf_alike h

private theorem jobUseField_alike (use : JobUse) (hpq : PairAlike R p q) :
    jobUseField v use p = jobUseField w use q := by
  unfold jobUseField
  obtain ⟨hp, hq⟩ | ⟨a, b, hp, hq, hab⟩ := rel_cases hpq.value
  · rw [hp, hq]
  simp only [hp, hq, h.keyText hpq, h.pairRange hpq, h.located hab, h.text hab, h.range hab, h.locatedTexts hab,
    requirements_alike h hab, readSteps_alike h hab, readAssignment_alike h hpq]
  obtain ⟨ha, hb⟩ | ⟨x, y, ha, hb, hxy⟩ := rel_cases (h.field? hab "parameters")
  · rw [ha, hb]
  · simp only [ha, hb, readAssignments_alike h hxy]

private theorem jobUse_alike (hij : ItemAlike R i j) : jobUse v i = jobUse w j := by
  unfold jobUse
  obtain ⟨hi, hj⟩ | ⟨a, b, hi, hj, hab⟩ := rel_cases hij.value
  · simp only [hi, hj, h.itemRange hij, h.markerRange hij]
  obtain ⟨ha, hb⟩ | ⟨x, y, ha, hb, hxy⟩ := rel_cases (h.mapping? hab)
  · simp only [hi, hj, ha, hb, h.text hab, h.range hab, h.itemRange hij]
  obtain ⟨hx, hy⟩ | ⟨p, q, hx, hy, hpq⟩ := rel_cases (rel_head? (h.pairs hxy))
  · simp only [hi, hj, ha, hb, hx, hy, h.itemRange hij]
  obtain ⟨hp, hq⟩ | ⟨body, body', hp, hq, hbody⟩ := rel_cases hpq.value
  · simp only [hi, hj, ha, hb, hx, hy, hp, hq, h.itemRange hij, h.keyText hpq, h.keyRange hpq]
  simp only [hi, hj, ha, hb, hx, hy, hp, hq, h.itemRange hij, h.keyText hpq, h.keyRange hpq]
  exact through_congr (h.pairs hbody) (fun s _ _ hpq => jobUseField_alike h s hpq) _

private theorem workflowField_alike (workflow : Workflow) (hpq : PairAlike R p q) :
    workflowField v workflow p = workflowField w workflow q := by
  rw [workflowField, workflowField]
  obtain ⟨hp, hq⟩ | ⟨a, b, hp, hq, hab⟩ := rel_cases hpq.value
  · rw [hp, hq]
  · simp only [hp, hq, h.keyText hpq, h.pairRange hpq, each_congr (h.items hab) fun _ _ => jobUse_alike h]

private theorem workflow_alike (hpq : PairAlike R p q) : workflow v p = workflow w q := by
  unfold workflow
  obtain ⟨hp, hq⟩ | ⟨key, key', hp, hq, hkey⟩ := rel_cases hpq.key
  · rw [hp, hq]
  obtain ⟨ha, hb⟩ | ⟨a, b, ha, hb, hab⟩ := rel_cases hpq.value
  · rw [hp, hq, ha, hb]
  simp only [hp, hq, ha, hb, h.text hkey, h.range hkey, h.pairRange hpq]
  rw [through_congr (h.pairs hab) fun s _ _ hpq => workflowField_alike h s hpq]

private theorem workflows_alike (version : Float) (hnm : R n m) : workflows v version n = workflows w version m :=
  through_congr (h.pairs hnm) (fun _ _ _ hpq => by
    rw [h.keyText hpq, h.pairRange hpq, workflow_alike h hpq]) _

private theorem orbVersionRange_alike (hnm : R n m) : orbVersionRange v n = orbVersionRange w m := by
  rw [orbVersionRange, orbVersionRange, h.rawText hnm, h.start hnm, h.stop hnm]

variable {nested : List Char → Except Endless Document}
  (htext : ∀ {n m}, R n m → orbText v.tree.source n = orbText w.tree.source m)
include htext

private theorem orb_alike (hpq : PairAlike R p q) : orb v nested p = orb w nested q := by
  unfold orb
  obtain ⟨hp, hq⟩ | ⟨key, key', hp, hq, hkey⟩ := rel_cases hpq.key
  · rw [hp, hq]
  obtain ⟨hpr, hqr⟩ | ⟨a, b, hpr, hqr, hab⟩ := rel_cases hpq.rawValue
  · rw [hp, hq, hpr, hqr]
  have hmapping : (v.mapping? a).isNone = (w.mapping? b).isNone := by
    rw [← Option.not_isSome, ← Option.not_isSome, isSome_eq_of_rel (h.mapping? hab)]
  simp only [hp, hq, hpr, hqr, h.text hkey, h.range hkey, h.pairRange hpq, h.range hab, h.kind hab, h.text hab,
    hmapping, htext hab, orbVersionRange_alike h hab]

private theorem orbs_alike (hnm : R n m) : orbs v nested n = orbs w nested m :=
  through_congr (h.pairs hnm) (fun _ _ _ hpq => by rw [orb_alike h htext hpq]) _

private theorem readSection_alike (d : Document) {name : String} (hname : name ∈ sectionOrder) (hpq : PairAlike R p q) :
    readSection v nested d name p = readSection w nested d name q := by
  obtain ⟨hp, hq⟩ | ⟨a, b, hp, hq, hab⟩ := rel_cases hpq.value
  · simp only [readSection, emptySection, h.valueOrPairRange hpq, h.pairRange hpq, hp, hq]
    split <;> first | rfl | contradiction
  · simp only [sectionOrder, List.mem_cons, List.not_mem_nil, or_false] at hname
    rcases hname with rfl | rfl | rfl | rfl | rfl | rfl | rfl | rfl <;>
      simp only [readSection, hp, hq, h.valueOrPairRange hpq, h.pairRange hpq, h.characters hab, h.text hab,
        orbs_alike h htext hab, executors_alike h hab, commands_alike h hab, jobs_alike h hab, parameters_alike h hab,
        workflows_alike h _ hab, Option.map_some]

/-- Values with pairs that correspond are read as the same document. -/
theorem readEntities_alike (d : Document) (hpairs : Forall₂ (PairAlike R) (v.pairs n) (w.pairs m)) :
    readEntities v nested d n = readEntities w nested d m := by
  have hnames : Forall₂ (fun name other => name = other ∧ name ∈ sectionOrder) sectionOrder sectionOrder :=
    List.forall₂_same.mpr fun name hname => ⟨rfl, hname⟩
  rw [readEntities, readEntities]
  congr 1
  refine through_congr hnames (fun d name _ hname => ?_) d
  obtain ⟨rfl, hname⟩ := hname
  have hsection : Option.Rel (PairAlike R) ((v.pairs n).find? fun p => v.keyText p == name)
      ((w.pairs m).find? fun p => w.keyText p == name) :=
    rel_find? hpairs fun _ _ hpq => by rw [h.keyText hpq]
  obtain ⟨hn, hm⟩ | ⟨p, q, hn, hm, hpq⟩ := rel_cases hsection
  · rw [hn, hm]
  · simp only [hn, hm, readSection_alike h htext d hname hpq]

end PipelineLint.Read
