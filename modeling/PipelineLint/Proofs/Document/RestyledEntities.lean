import PipelineLint.Proofs.Document.Endless
import PipelineLint.Proofs.Document.RestyledSteps

/-! # Entities in another style

The readers of parameters, executors, commands, jobs and workflows read values that show the same in different styles as
the same entities, but for their places.
-/

namespace PipelineLint

open List (Forall₂)
open Yaml Yaml.View Reads

namespace Read

theorem insertFirst_shown {α β : Type} {f : α → β} {found found' : NameMap α} {e e' : α}
    (hfound : found.map f = found'.map f) (he : f e = f e') (name : String) (nameRange : α → Range)
    (message : String) : shown (NameMap.map f) (insertFirst found name e nameRange message) =
      shown (NameMap.map f) (insertFirst found' name e' nameRange message) := by
  have hfirst : (found.get? name).map f = (found'.get? name).map f := by
    rw [← NameMap.get?_map, hfound, NameMap.get?_map]
  unfold insertFirst
  cases hv : found.get? name with
  | none =>
    have hw := Option.map_eq_none_iff.mp (hfirst.symm.trans (congrArg _ hv))
    simp only [hw, shown_pure, NameMap.map_insert, hfound, he]
  | some first =>
    obtain ⟨first', hw, -⟩ := Option.map_eq_some_iff.mp (hfirst.symm.trans (congrArg _ hv))
    simp only [hw, shown_note_bind, shown_pure, hfound]

variable {v w : View} {N : Node → Node → Prop} {R : Site → Node → Node → Prop} {s : Site} {n m : Node} {p q : Pair}
  {i j : Item} (h : Restyled v w N R)
include h

private theorem texts_restyled (hnm : R s n m) (hs : s.item = .text) :
    (v.texts n).map Located.unplaced = (w.texts m).map Located.unplaced := by
  have hunplaced (ls : List Located) : ls.map Located.unplaced = (ls.map (·.text)).map fun text => ⟨text, {}⟩ := by
    rw [List.map_map]
    rfl
  rw [hunplaced, hunplaced, h.texts hnm hs]

private theorem textOrTexts_restyled (hnm : R .texts n m) : v.textOrTexts n = w.textOrTexts m := by
  rw [textOrTexts, textOrTexts, ← isSome_eq_of_rel (h.sequence? hnm)]
  split
  · exact h.texts hnm rfl
  · rw [h.text_of_sequence?_eq_none hnm (Option.not_isSome_iff_eq_none.mp ‹_›)]

theorem locatedTexts_restyled (hnm : R .texts n m) :
    (v.locatedTexts n).map Located.unplaced = (w.locatedTexts m).map Located.unplaced := by
  rw [locatedTexts, locatedTexts, ← isSome_eq_of_rel (h.sequence? hnm)]
  split
  · exact texts_restyled h hnm rfl
  · have htext := h.text_of_sequence?_eq_none hnm (Option.not_isSome_iff_eq_none.mp ‹_›)
    simp [Located.unplaced, located, htext]

private theorem canBeStep_restyled (hij : ItemRestyled R .step i j) : canBeStep v i = canBeStep w j :=
  any_eq_of_rel hij.value fun a b hab => by
    have hmapping := any_eq_of_rel (p := fun x => !(v.directPairs x).isEmpty) (q := fun y => !(w.directPairs y).isEmpty)
      (h.mapping? hab) fun x y hxy => by rw [isEmpty_directPairs_restyled h hxy]
    rw [isSome_eq_of_rel (h.scalar? hab), hmapping]

private theorem stepsDefault_restyled (hnm : R (.list .step) n m) :
    shown (List.map Step.unplaced) (stepsDefault v n) = shown (List.map Step.unplaced) (stepsDefault w m) := by
  rw [stepsDefault, stepsDefault]
  refine shown_bind (shown_each (h.items hnm) fun i j hij => ?_) fun xss yss hxy => congrArg Except.ok (map_flatten_eq hxy)
  rw [← canBeStep_restyled h hij]
  split
  · exact readStep_restyled h hij.value
  · rw [shown_note_bind, shown_note_bind]

private theorem defaultFor_restyled {x y : ParameterType} (hxy : x.unplaced = y.unplaced)
    (hvalue : Option.Rel (R (Site.declaredField (x.word = "steps") "default")) p.value q.value) :
    shown (Option.map ParameterType.unplaced) (defaultFor v x p) =
      shown (Option.map ParameterType.unplaced) (defaultFor w y q) := by
  by_cases hsteps : x.word = "steps"
  · simp only [hsteps, Site.declaredField, decide_true, if_true] at hvalue
    obtain ⟨xs, rfl⟩ : ∃ xs, x = .steps xs := by
      cases x with
      | steps xs => exact ⟨xs, rfl⟩
      | _ => simp [ParameterType.word] at hsteps
    obtain ⟨ys, rfl⟩ : ∃ ys, y = .steps ys := by
      cases y with
      | steps ys => exact ⟨ys, rfl⟩
      | _ => cases hxy
    have hsequence : Option.Rel (R (.list .step)) (p.value.filter fun value => (v.sequence? value).isSome)
        (q.value.filter fun value => (w.sequence? value).isSome) :=
      rel_filter hvalue fun _ _ hab => isSome_eq_of_rel (h.sequence? hab)
    unfold defaultFor
    obtain ⟨hp, hq⟩ | ⟨a, b, hp, hq, hab⟩ := rel_cases hsequence
    · rw [hp, hq]
    · rw [hp, hq]
      refine shown_bind (stepsDefault_restyled h hab) fun xs ys hxy => ?_
      simp only [shown_pure, Option.map_some, ParameterType.unplaced, hxy]
  · simp only [hsteps, Site.declaredField, decide_false, Bool.false_eq_true, if_false] at hvalue
    have htext := h.textOrEmpty hvalue
    unfold defaultFor
    rw [htext]
    cases x with
    | steps xs => exact absurd rfl hsteps
    | _ =>
      cases y <;> simp_all [ParameterType.unplaced]

private theorem parameterField_restyled {x y : Parameter} (hxy : x.unplaced = y.unplaced)
    (hpq : PairRestyled v R (Site.declaredField (x.type.word = "steps")) p q) :
    shown Parameter.unplaced (parameterField v x p) = shown Parameter.unplaced (parameterField w y q) := by
  have hvalue := hpq.value
  rw [parameterField, parameterField, ← h.keyText hpq]
  generalize v.keyText p = key at hvalue
  have htype : x.type.unplaced = y.type.unplaced := congrArg Parameter.type hxy
  split
  · have htext := map_eq_of_rel hvalue fun _ _ => h.text
    exact congrArg Except.ok (congrArg₂ (fun (x : Parameter) text => { x with description := text }) hxy htext)
  · obtain ⟨hp, hq⟩ | ⟨a, b, hp, hq, hab⟩ := rel_cases hvalue
    · rw [hp, hq]
      cases x.type <;> cases y.type <;> exact congrArg Except.ok hxy
    · rw [hp, hq]
      have htexts := h.texts hab rfl
      cases hx : x.type with
      | enum default values range =>
        cases hy : y.type with
        | enum default' values' range' =>
          rw [hx, hy] at htype
          cases htype
          exact congrArg Except.ok (congrArg₂ (fun (x : Parameter) texts => { x with type := .enum default texts {} }) hxy
            htexts)
        | _ =>
          rw [hx, hy] at htype
          cases htype
      | _ =>
        cases hy : y.type with
        | enum =>
          rw [hx, hy] at htype
          cases htype
        | _ => exact congrArg Except.ok hxy
  · refine shown_bind (defaultFor_restyled h htype hvalue) fun d d' hdd' => ?_
    obtain ⟨rfl, rfl⟩ | ⟨type, type', rfl, rfl, htypes⟩ := option_cases hdd'
    · exact congrArg Except.ok hxy
    · exact congrArg Except.ok
        (congrArg₂ (fun (x : Parameter) type => { x with type, hasDefault := true }) hxy htypes)
  · exact congrArg Except.ok hxy

private theorem parameter_restyled (hkey : Option.Rel (R .text) p.key q.key)
    (hvalue : Option.Rel (R .parameter) p.value q.value) :
    shown (Option.map Parameter.unplaced) (parameter v p) = shown (Option.map Parameter.unplaced) (parameter w q) := by
  unfold parameter
  obtain ⟨hp, hq⟩ | ⟨key, key', hp, hq, hkey⟩ := rel_cases hkey
  · rw [hp, hq]
  obtain ⟨ha, hb⟩ | ⟨a, b, ha, hb, hab⟩ := rel_cases (rel_bind hvalue fun _ _ => h.mapping?)
  · rw [hp, hq, ha, hb]
  simp only [hp, hq, ha, hb, h.text hkey]
  have hdeclared := (h.shows hab).parameter rfl
  have hfield : v.textOrEmpty ((v.find? a "type").bind (·.value)) = w.textOrEmpty ((w.find? b "type").bind (·.value)) :=
    h.textOrEmpty (h.field? hab "type")
  rw [← hfield]
  cases htype : ParameterType.ofWord? (v.textOrEmpty ((v.find? a "type").bind (·.value))) with
  | none => rfl
  | some type =>
    have hword := word_of_ofWord? htype
    refine shown_bind (f := Parameter.unplaced) ?_ fun x y hxy => ?_
    · refine shown_through_of_always (P := fun x : Parameter => x.type.word = type.word) (h.pairs hdeclared)
        (fun x p hx => hx ▸ always_word_parameterField) (fun x y p q hx hxy hpq => ?_) rfl rfl
      refine parameterField_restyled h hxy ?_
      rw [hx, hword]
      exact hpq
    · rcases x.strayDefault? with _ | ⟨_, _⟩ <;> rcases y.strayDefault? with _ | ⟨_, _⟩ <;>
        simp only [shown_note_bind, shown_pure, Option.map_some, hxy]

theorem parameters_restyled (hnm : R (.each .parameter) n m) :
    shown (NameMap.map Parameter.unplaced) (parameters v n) = shown (NameMap.map Parameter.unplaced) (parameters w m) := by
  rw [parameters, parameters]
  refine shown_bind (shown_each (h.pairs hnm) fun p q hpq => parameter_restyled h hpq.key hpq.value) fun xs ys hxy => ?_
  have hentries (xs : List (Option Parameter)) :
      (((xs.filterMap id).map fun p => (p.name, p)).map fun entry => (entry.1, entry.2.unplaced)) =
        ((xs.map (Option.map Parameter.unplaced)).filterMap id).map fun p => (p.name, p) := by
    rw [List.filterMap_map, List.map_map, List.map_filterMap, List.map_filterMap]
    refine List.filterMap_congr fun x _ => ?_
    cases x <;> rfl
  rw [shown_pure, shown_pure, NameMap.map_ofList, NameMap.map_ofList, hentries, hentries, hxy]

private theorem imageField_restyled {x y : ImageSpec} (hxy : x.unplaced = y.unplaced)
    (hpq : PairRestyled v R Site.imageField p q) : (imageField v x p).unplaced = (imageField w y q).unplaced := by
  have hvalue := hpq.value
  rw [imageField, imageField, ← h.keyText hpq]
  generalize v.keyText p = key at hvalue
  obtain ⟨hp, hq⟩ | ⟨a, b, hp, hq, hab⟩ := rel_cases hvalue
  · rw [hp, hq]
    exact hxy
  rw [hp, hq]
  dsimp only
  split
  · exact congrArg₂ (fun (x : ImageSpec) text => { x with image := Docker.Image.parse text }) hxy (h.text hab)
  · exact congrArg₂ (fun (x : ImageSpec) text => { x with name := some text }) hxy (h.text hab)
  · exact congrArg₂ (fun (x : ImageSpec) texts => { x with entrypoint := texts }) hxy (textOrTexts_restyled h hab)
  · exact congrArg₂ (fun (x : ImageSpec) texts => { x with command := texts }) hxy (textOrTexts_restyled h hab)
  · exact congrArg₂ (fun (x : ImageSpec) text => { x with user := some text }) hxy (h.text hab)
  · exact congrArg₂ (fun (x : ImageSpec) e => { x with environment := e }) hxy (environment_restyled h hab)
  · rw [dictionary_restyled h hab]
    exact congrArg₂ (fun (x : ImageSpec) auth => { x with auth }) hxy rfl
  · rw [dictionary_restyled h hab]
    exact congrArg₂ (fun (x : ImageSpec) awsAuth => { x with awsAuth }) hxy rfl
  · exact hxy

private theorem images_restyled (hnm : R (.list .image) n m) :
    (images v n).map ImageSpec.unplaced = (images w m).map ImageSpec.unplaced := by
  rw [images, images, List.map_filterMap, List.map_filterMap]
  refine filterMap_eq_of_forall₂ (h.items hnm) fun i j hij => ?_
  rw [Option.map_map, Option.map_map]
  refine map_eq_of_rel (h.itemMapping? hij) fun a b hab => ?_
  exact foldl_shown (h.pairs hab) (fun _ _ _ _ hxy hpq => imageField_restyled h hxy hpq) rfl

private theorem machine_restyled (hvalue : Option.Rel (R .machine) p.value q.value) :
    (machine v p).unplaced = (machine w q).unplaced := by
  rw [machine, machine]
  obtain ⟨hp, hq⟩ | ⟨a, b, hp, hq, hab⟩ := rel_cases hvalue
  · simp only [hp, hq, Machine.unplaced]
  simp only [hp, hq]
  rw [← Option.not_isSome, ← Option.not_isSome, ← isSome_eq_of_rel (h.mapping? hab)]
  split
  · rename_i hnone
    have htext := h.text_of_mapping?_eq_none hab (by simpa using hnone) fun kind hkind => by
      simpa [Site.readsText] using hkind
    simp only [Machine.unplaced, htext]
  · refine foldl_shown (h.pairs hab) (fun x y p q hxy hpq => ?_) rfl
    have hvalue := hpq.value
    rw [← h.keyText hpq]
    generalize v.keyText p = key at hvalue
    split
    · exact congrArg₂ (fun (x : Machine) text => { x with image := text }) hxy (h.textOrEmpty hvalue)
    · exact congrArg₂ (fun (x : Machine) text => { x with layerCaching := text == "true" }) hxy (h.textOrEmpty hvalue)
    · exact hxy

/-- The one text that counts in a mapping. -/
theorem only_restyled {name : String} (hvalue : Option.Rel (R (.only name)) p.value q.value) :
    (match p.value.bind fun value => v.find? value name with
      | some field => (v.textOrEmpty field.value, field.range)
      | none => ("", {})).1 =
    (match q.value.bind fun value => w.find? value name with
      | some field => (w.textOrEmpty field.value, field.range)
      | none => ("", {})).1 := by
  obtain ⟨hp, hq⟩ | ⟨x, y, hp, hq, hxy, hkey⟩ := rel_cases (rel_bind hvalue fun _ _ hab => h.find? hab name)
  · rw [hp, hq]
  · rw [hp, hq]
    have htext : (Site.only name).field (v.keyText x) = .text := if_pos hkey
    exact h.textOrEmpty (htext ▸ hxy.value)

private theorem executorKind_restyled {family : String} (hfamily : executorFamilies.contains family)
    (hvalue : Option.Rel (R (Site.executorField family)) p.value q.value) :
    (executorKind v family p).unplaced = (executorKind w family q).unplaced := by
  unfold executorKind
  split
  · have himages : ((p.value.map (images v)).getD []).map ImageSpec.unplaced =
        ((q.value.map (images w)).getD []).map ImageSpec.unplaced := by
      obtain ⟨hp, hq⟩ | ⟨a, b, hp, hq, hab⟩ := rel_cases hvalue
      · simp only [hp, hq, Option.map_none]
      · simpa only [hp, hq, Option.map_some, Option.getD_some] using images_restyled h hab
    exact congrArg ExecutorKind.docker himages
  · exact congrArg ExecutorKind.machine (machine_restyled h hvalue)
  · exact congrArg (ExecutorKind.macos · {}) (only_restyled h hvalue)
  · obtain rfl : family = "windows" := by simp_all [executorFamilies]
    exact congrArg (ExecutorKind.windows · {}) (only_restyled h hvalue)

theorem executorField_restyled {x y : Executor} (hxy : x.unplaced = y.unplaced) (hkey : v.keyText p = w.keyText q)
    (hvalue : Site.executorField (v.keyText p) ≠ .other →
      Option.Rel (R (Site.executorField (v.keyText p))) p.value q.value) :
    (executorField v x p).unplaced = (executorField w y q).unplaced := by
  rw [executorField, executorField, ← hkey]
  generalize v.keyText p = key at hvalue
  dsimp only
  split
  · rename_i hfamily
    have hrel : Option.Rel (R (Site.executorField key)) p.value q.value := by
      refine hvalue ?_
      simp only [executorFamilies, List.contains_cons, List.contains_nil, Bool.or_false, Bool.or_eq_true,
        beq_iff_eq] at hfamily
      rcases hfamily with rfl | rfl | rfl | rfl <;> decide
    have hincomplete : x.kind.isIncomplete = y.kind.isIncomplete := by
      rw [← ExecutorKind.isIncomplete_unplaced, ← ExecutorKind.isIncomplete_unplaced y.kind]
      exact congrArg (fun x : Executor => x.kind.isIncomplete) hxy
    rw [hincomplete]
    split
    · exact congrArg₂ (fun (x : Executor) kind => { x with kind }) hxy (executorKind_restyled h hfamily hrel)
    · exact hxy
  split
  · exact congrArg₂ (fun (x : Executor) text => { x with resourceClass := text }) hxy
      (h.textOrEmpty (hvalue (by decide)))
  · exact congrArg₂ (fun (x : Executor) text => { x with description := text }) hxy
      (map_eq_of_rel (hvalue (by decide)) fun _ _ => h.text)
  · exact congrArg₂ (fun (x : Executor) text => { x with shell := text }) hxy
      (map_eq_of_rel (hvalue (by decide)) fun _ _ => h.text)
  · exact congrArg₂ (fun (x : Executor) text => { x with workingDirectory := text }) hxy
      (map_eq_of_rel (hvalue (by decide)) fun _ _ => h.text)
  · obtain ⟨hp, hq⟩ | ⟨a, b, hp, hq, hab⟩ := rel_cases (hvalue (by decide))
    · rw [hp, hq]
      exact hxy
    · rw [hp, hq]
      exact congrArg₂ (fun (x : Executor) e => { x with environment := e }) hxy (environment_restyled h hab)
  · exact hxy

private theorem executorBody_restyled (hnm : R .executor n m) :
    shown Executor.unplaced (executorBody v n) = shown Executor.unplaced (executorBody w m) := by
  refine shown_through (h.pairs hnm) (fun x y p q hxy hpq => ?_) rfl
  have hvalue : Option.Rel (R (Site.executorField (v.keyText p))) p.value q.value := hpq.value
  rw [← h.keyText hpq]
  split
  · rename_i hkey
    rw [hkey] at hvalue
    obtain ⟨hp, hq⟩ | ⟨a, b, hp, hq, hab⟩ := rel_cases hvalue
    · rw [hp, hq]
      exact congrArg Except.ok hxy
    · rw [hp, hq]
      refine shown_bind (parameters_restyled h hab) fun xs ys hxs => ?_
      exact congrArg Except.ok (congrArg₂ (fun (x : Executor) parameters => { x with parameters }) hxy hxs)
  · exact congrArg Except.ok (executorField_restyled h hxy (h.keyText hpq) fun _ => hvalue)

theorem executors_restyled (hnm : R (.each .executor) n m) :
    shown (NameMap.map Executor.unplaced) (executors v n) = shown (NameMap.map Executor.unplaced) (executors w m) := by
  refine shown_through (h.pairs hnm) (fun found found' p q hfound hpq => ?_) rfl
  obtain ⟨hp, hq⟩ | ⟨key, key', hp, hq, hkey⟩ := rel_cases hpq.key
  · rw [hp, hq]
    exact congrArg Except.ok hfound
  obtain ⟨ha, hb⟩ | ⟨a, b, ha, hb, hab⟩ := rel_cases (rel_bind hpq.value fun _ _ => h.mapping?)
  · rw [hp, hq, ha, hb]
    exact congrArg Except.ok hfound
  simp only [hp, hq, ha, hb, h.text hkey]
  refine shown_bind (executorBody_restyled h hab) fun x y hxy => ?_
  exact insertFirst_shown hfound (congrArg (fun x : Executor => { x with name := w.text key' }) hxy) _ _ _

private theorem executorUse_restyled (hvalue : Option.Rel (R .executorUse) p.value q.value) :
    shown ExecutorUse.unplaced (executorUse v p) = shown ExecutorUse.unplaced (executorUse w q) := by
  rw [executorUse, executorUse]
  obtain ⟨hp, hq⟩ | ⟨a, b, hp, hq, hab⟩ := rel_cases hvalue
  · simp only [hp, hq, shown_pure, ExecutorUse.unplaced]
  obtain ⟨ha, hb⟩ | ⟨x, y, ha, hb, hxy⟩ := rel_cases (h.mapping? hab)
  · have htext := h.text_of_mapping?_eq_none hab ha fun kind hkind => by simpa [Site.readsText] using hkind
    simp only [hp, hq, ha, hb, shown_pure, ExecutorUse.unplaced, htext]
  simp only [hp, hq, ha, hb]
  refine shown_through (h.pairs hxy) (fun use use' p q huse hpq => ?_) rfl
  rw [← h.keyText hpq]
  split
  · rename_i hkey
    have hvalue : Option.Rel (R .text) p.value q.value := (if_pos hkey : Site.executorUse.field (v.keyText p) = .text) ▸
      hpq.value
    exact congrArg Except.ok (congrArg₂ (fun (use : ExecutorUse) name => { use with name }) huse (h.textOrEmpty hvalue))
  · rename_i hkey
    have hfield : Site.executorUse.field (v.keyText p) = .value := if_neg hkey
    refine shown_bind (readAssignment_restyled h ⟨hpq.key, hfield ▸ hpq.rawValue, hfield ▸ hpq.value⟩) fun a b hab => ?_
    have hparameters : use.parameters.map Assignment.unplaced = use'.parameters.map Assignment.unplaced :=
      congrArg ExecutorUse.parameters huse
    obtain ⟨rfl, rfl⟩ | ⟨x, y, rfl, rfl, hxy⟩ := option_cases hab
    · exact congrArg Except.ok huse
    · exact congrArg Except.ok (congrArg₂ (fun (use : ExecutorUse) parameters => { use with parameters }) huse
        (Assignments.map_insert_congr hparameters hxy))

private theorem retention_restyled (hnm : R (.only "caches") n m) :
    (retention v n).unplaced = (retention w m).unplaced := by
  rw [retention, retention]
  refine foldl_shown (h.pairs hnm) (fun r r' p q hr hpq => ?_) rfl
  obtain ⟨hp, hq⟩ | ⟨a, b, hp, hq, hab⟩ := rel_cases hpq.value
  · rw [hp, hq]
    exact hr
  rw [hp, hq, ← h.keyText hpq]
  dsimp only
  split
  · rename_i hkey
    have htext : (Site.only "caches").field (v.keyText p) = .text := if_pos hkey
    exact congrArg₂ (fun (r : Retention) text => { r with caches := some ⟨text, {}⟩ }) hr (h.text (htext ▸ hab))
  · exact hr

private theorem commandField_restyled {x y : Command} (hxy : x.unplaced = y.unplaced)
    (hpq : PairRestyled v R Site.commandField p q) :
    shown Command.unplaced (commandField v x p) = shown Command.unplaced (commandField w y q) := by
  have hvalue := hpq.value
  rw [commandField, commandField, ← h.keyText hpq]
  generalize v.keyText p = key at hvalue
  obtain ⟨hp, hq⟩ | ⟨a, b, hp, hq, hab⟩ := rel_cases hvalue
  · rw [hp, hq]
    exact congrArg Except.ok hxy
  rw [hp, hq]
  dsimp only
  split
  · exact congrArg Except.ok
      (congrArg₂ (fun (x : Command) text => { x with description := some text }) hxy (h.text hab))
  · refine shown_bind (readSteps_restyled h hab) fun xs ys hxs => ?_
    exact congrArg Except.ok (congrArg₂ (fun (x : Command) steps => { x with steps }) hxy hxs)
  · refine shown_bind (parameters_restyled h hab) fun xs ys hxs => ?_
    exact congrArg Except.ok (congrArg₂ (fun (x : Command) parameters => { x with parameters }) hxy hxs)
  · exact congrArg Except.ok hxy

private theorem command_restyled (hkey : Option.Rel (R .text) p.key q.key)
    (hvalue : Option.Rel (R .command) p.value q.value) :
    shown (Option.map Command.unplaced) (command v p) = shown (Option.map Command.unplaced) (command w q) := by
  unfold command
  obtain ⟨hp, hq⟩ | ⟨key, key', hp, hq, hkey⟩ := rel_cases hkey
  · rw [hp, hq]
  obtain ⟨ha, hb⟩ | ⟨a, b, ha, hb, hab⟩ := rel_cases (rel_bind hvalue fun _ _ => h.mapping?)
  · rw [hp, hq, ha, hb]
  simp only [hp, hq, ha, hb, h.text hkey]
  refine shown_bind (shown_through (h.pairs hab) (fun _ _ _ _ hxy hpq => commandField_restyled h hxy hpq) rfl)
    fun x y hxy => ?_
  exact congrArg (Except.ok ∘ some) hxy

theorem commands_restyled (hnm : R (.each .command) n m) :
    shown (NameMap.map Command.unplaced) (commands v n) = shown (NameMap.map Command.unplaced) (commands w m) := by
  refine shown_through (h.pairs hnm) (fun found found' p q hfound hpq => ?_) rfl
  refine shown_bind (command_restyled h hpq.key hpq.value) fun x y hxy => ?_
  obtain ⟨rfl, rfl⟩ | ⟨c, c', rfl, rfl, hc⟩ := option_cases hxy
  · exact congrArg Except.ok hfound
  have hname : c.name = c'.name := by rw [← Command.name_unplaced, hc, Command.name_unplaced]
  simp only [hname]
  split
  · exact congrArg Except.ok hfound
  · exact insertFirst_shown hfound hc _ _ _

private theorem jobField_restyled {x y : Job} (hxy : x.unplaced = y.unplaced)
    (hpq : PairRestyled v R Site.jobField p q) :
    shown Job.unplaced (jobField v x p) = shown Job.unplaced (jobField w y q) := by
  have hvalue := hpq.value
  rw [jobField, jobField, ← h.keyText hpq]
  generalize v.keyText p = key at hvalue
  dsimp only
  split
  · subst key
    refine shown_bind (executorUse_restyled h hvalue) fun use use' huse => ?_
    exact congrArg Except.ok (congrArg₂ (fun (x : Job) use => { x with executor := some use }) hxy huse)
  obtain ⟨hp, hq⟩ | ⟨a, b, hp, hq, hab⟩ := rel_cases hvalue
  · rw [hp, hq]
    exact congrArg Except.ok hxy
  rw [hp, hq]
  dsimp only
  split
  · exact congrArg Except.ok
      (congrArg₂ (fun (x : Job) l => { x with type := some l }) hxy (located_restyled h hab))
  · exact congrArg Except.ok (congrArg₂ (fun (x : Job) text => { x with description := some text }) hxy (h.text hab))
  · exact congrArg Except.ok (congrArg₂ (fun (x : Job) text => { x with shell := some text }) hxy (h.text hab))
  · exact congrArg Except.ok
      (congrArg₂ (fun (x : Job) text => { x with workingDirectory := some text }) hxy (h.text hab))
  · rw [h.text hab]
    split
    · exact congrArg Except.ok (congrArg₂ (fun (x : Job) n => { x with parallelism := some n }) hxy rfl)
    · exact congrArg Except.ok hxy
  · exact congrArg Except.ok (congrArg₂ (fun (x : Job) text => { x with resourceClass := some text }) hxy (h.text hab))
  · refine shown_bind (readSteps_restyled h hab) fun xs ys hxs => ?_
    exact congrArg Except.ok (congrArg₂ (fun (x : Job) steps => { x with steps }) hxy hxs)
  · refine shown_bind (parameters_restyled h hab) fun xs ys hxs => ?_
    exact congrArg Except.ok (congrArg₂ (fun (x : Job) parameters => { x with parameters }) hxy hxs)
  · exact congrArg Except.ok
      (congrArg₂ (fun (x : Job) e => { x with environment := e }) hxy (environment_restyled h hab))
  · exact congrArg Except.ok
      (congrArg₂ (fun (x : Job) r => { x with retention := some r }) hxy (retention_restyled h hab))
  · exact congrArg Except.ok
      (congrArg₂ (fun (x : Job) text => { x with ipRanges := text == "true" }) hxy (h.text hab))
  · exact congrArg Except.ok hxy

omit h in
private theorem jobField_eq_executorField {key : String} (hkey : Site.executorField key ≠ .other) :
    Site.jobField key = Site.executorField key := by
  unfold Site.jobField
  split <;> first | rfl | exact absurd rfl hkey

private theorem inlineExecutor_restyled (hnm : R .job n m) :
    (inlineExecutor v n).unplaced = (inlineExecutor w m).unplaced := by
  refine foldl_shown (h.pairs hnm) (fun x y p q hxy hpq => ?_) rfl
  refine executorField_restyled h hxy (h.keyText hpq) fun hkey => ?_
  exact jobField_eq_executorField hkey ▸ hpq.value

private theorem hasInlineExecutor_restyled {field : String → Site} {ps qs : List Pair}
    (hps : Forall₂ (PairRestyled v R field) ps qs) : hasInlineExecutor v ps = hasInlineExecutor w qs :=
  any_eq_of_forall₂ hps fun _ _ hpq => by rw [isSome_eq_of_rel hpq.value, h.keyText hpq]

private theorem job_restyled (hkey : Option.Rel (R .text) p.key q.key) (hvalue : Option.Rel (R .job) p.value q.value) :
    shown (Option.map Job.unplaced) (job v p) = shown (Option.map Job.unplaced) (job w q) := by
  unfold job
  obtain ⟨hp, hq⟩ | ⟨key, key', hp, hq, hkey⟩ := rel_cases hkey
  · rw [hp, hq]
  obtain ⟨ha, hb⟩ | ⟨a, b, ha, hb, hab⟩ := rel_cases (rel_bind hvalue fun _ _ => h.mapping?)
  · rw [hp, hq, ha, hb]
  simp only [hp, hq, ha, hb, h.text hkey, ← hasInlineExecutor_restyled h (h.pairs hab)]
  refine shown_bind (shown_through (h.pairs hab) (fun _ _ _ _ hxy hpq => jobField_restyled h hxy hpq) rfl)
    fun x y hxy => ?_
  split
  · have hnamed := congrArg₂ (fun (x : Job) (own : Executor) =>
      ({ own with parameters := x.parameters, name := x.name } : Executor)) hxy (inlineExecutor_restyled h hab)
    exact congrArg (Except.ok ∘ some)
      (congrArg₂ (fun (x : Job) named => { x with inlineExecutor := some named }) hxy hnamed)
  · exact congrArg (Except.ok ∘ some) hxy

theorem jobs_restyled (hnm : R (.each .job) n m) :
    shown (NameMap.map Job.unplaced) (jobs v n) = shown (NameMap.map Job.unplaced) (jobs w m) := by
  refine shown_through (h.pairs hnm) (fun found found' p q hfound hpq => ?_) rfl
  refine shown_bind (job_restyled h hpq.key hpq.value) fun x y hxy => ?_
  obtain ⟨rfl, rfl⟩ | ⟨j, j', rfl, rfl, hj⟩ := option_cases hxy
  · exact congrArg Except.ok hfound
  have hname : j.name = j'.name := by rw [← Job.name_unplaced, hj, Job.name_unplaced]
  simp only [hname]
  exact insertFirst_shown hfound hj _ _ _

private theorem requirementsOf_restyled (hij : ItemRestyled R .requirement i j) :
    (requirementsOf v i).map Requirement.unplaced = (requirementsOf w j).map Requirement.unplaced := by
  rw [requirementsOf, requirementsOf]
  obtain ⟨hi, hj⟩ | ⟨a, b, hi, hj, hab⟩ := rel_cases hij.value
  · simp only [hi, hj]
  obtain ⟨ha, hb⟩ | ⟨x, y, ha, hb, hxy⟩ := rel_cases (h.mapping? hab)
  · have htext := h.text_of_mapping?_eq_none hab ha fun kind hkind => by simpa [Site.readsText] using hkind
    simp only [hi, hj, ha, hb, htext, List.map_singleton, Requirement.unplaced, Requirement.onSuccess, Located.unplaced]
  simp only [hi, hj, ha, hb, List.map_map]
  refine map_eq_of_forall₂ (h.pairs hxy) fun p q hpq => ?_
  simp only [Function.comp_apply, h.keyText hpq]
  obtain ⟨hp, hq⟩ | ⟨s, t, hp, hq, hst⟩ := rel_cases hpq.value
  · simp only [hp, hq, Requirement.unplaced, Located.unplaced]
  · simp only [hp, hq, Requirement.unplaced, Located.unplaced, locatedTexts_restyled h hst]

private theorem requirements_restyled (hnm : R (.list .requirement) n m) :
    (requirements v n).map Requirement.unplaced = (requirements w m).map Requirement.unplaced := by
  rw [requirements, requirements, List.map_flatMap, List.map_flatMap]
  exact flatMap_eq_of_forall₂ (h.items hnm) fun _ _ => requirementsOf_restyled h

private theorem jobUseField_restyled {x y : JobUse} (hxy : x.unplaced = y.unplaced)
    (hpq : PairRestyled v R Site.useField p q) :
    shown JobUse.unplaced (jobUseField v x p) = shown JobUse.unplaced (jobUseField w y q) := by
  have hvalue := hpq.value
  have hraw := hpq.rawValue
  rw [jobUseField, jobUseField, ← h.keyText hpq]
  generalize v.keyText p = key at hvalue hraw
  obtain ⟨hp, hq⟩ | ⟨a, b, hp, hq, hab⟩ := rel_cases hvalue
  · rw [hp, hq]
    exact congrArg Except.ok hxy
  rw [hp, hq]
  dsimp only
  split
  · exact congrArg Except.ok hxy
  · exact congrArg Except.ok
      (congrArg₂ (fun (x : JobUse) l => { x with type := some l }) hxy (located_restyled h hab))
  · exact congrArg Except.ok
      (congrArg₂ (fun (x : JobUse) requires => { x with requires }) hxy (requirements_restyled h hab))
  · exact congrArg Except.ok (congrArg₂ (fun (x : JobUse) stepName => { x with stepName }) hxy (h.text hab))
  · exact congrArg Except.ok
      (congrArg₂ (fun (x : JobUse) contexts => { x with contexts }) hxy (locatedTexts_restyled h hab))
  · exact congrArg Except.ok hxy
  · exact congrArg Except.ok hxy
  · exact congrArg Except.ok hxy
  · obtain ⟨ha, hb⟩ | ⟨inner, inner', ha, hb, hinner⟩ := rel_cases (h.field? hab "parameters")
    · rw [ha, hb]
      exact congrArg Except.ok (congrArg (fun x : JobUse => { x with hasMatrix := true }) hxy)
    · rw [ha, hb]
      refine shown_bind (readAssignments_restyled h hinner) fun as bs has => ?_
      exact congrArg Except.ok (congrArg₂ (fun (x : JobUse) matrix => { x with hasMatrix := true, matrix }) hxy has)
  · refine shown_bind (readSteps_restyled h hab) fun xs ys hxs => ?_
    exact congrArg Except.ok (congrArg₂ (fun (x : JobUse) preSteps => { x with preSteps }) hxy hxs)
  · refine shown_bind (readSteps_restyled h hab) fun xs ys hxs => ?_
    exact congrArg Except.ok (congrArg₂ (fun (x : JobUse) postSteps => { x with postSteps }) hxy hxs)
  · exact congrArg Except.ok
      (congrArg₂ (fun (x : JobUse) l => { x with maxAutoReruns := some l }) hxy (located_restyled h hab))
  · exact congrArg Except.ok
      (congrArg₂ (fun (x : JobUse) l => { x with serialGroup := some l }) hxy (located_restyled h hab))
  · have hfield : Site.useField key = .value := by
      unfold Site.useField
      split <;> first | contradiction | rfl
    refine shown_bind (readAssignment_restyled h ⟨hpq.key, hfield ▸ hraw, hfield ▸ hvalue⟩) fun a b hab => ?_
    have hparameters : x.parameters.map Assignment.unplaced = y.parameters.map Assignment.unplaced :=
      congrArg JobUse.parameters hxy
    obtain ⟨rfl, rfl⟩ | ⟨a, b, rfl, rfl, hab'⟩ := option_cases hab
    · exact congrArg Except.ok hxy
    · exact congrArg Except.ok (congrArg₂ (fun (x : JobUse) parameters => { x with parameters }) hxy
        (Assignments.map_insert_congr hparameters hab'))

private theorem jobUse_restyled (hij : ItemRestyled R .use i j) :
    shown JobUse.unplaced (jobUse v i) = shown JobUse.unplaced (jobUse w j) := by
  unfold jobUse
  obtain ⟨hi, hj⟩ | ⟨a, b, hi, hj, hab⟩ := rel_cases hij.value
  · simp only [hi, hj, shown_pure, JobUse.unplaced]
  obtain ⟨ha, hb⟩ | ⟨x, y, ha, hb, hxy⟩ := rel_cases (h.mapping? hab)
  · have htext := h.text_of_mapping?_eq_none hab ha fun kind hkind => by simpa [Site.readsText] using hkind
    simp only [hi, hj, ha, hb, htext, shown_pure, JobUse.unplaced]
  obtain ⟨hx, hy⟩ | ⟨p, q, hx, hy, hpq⟩ := rel_cases (rel_head? (h.pairs hxy))
  · simp only [hi, hj, ha, hb, hx, hy, shown_pure, JobUse.unplaced]
  obtain ⟨hp, hq⟩ | ⟨body, body', hp, hq, hbody⟩ := rel_cases hpq.value
  · simp only [hi, hj, ha, hb, hx, hy, hp, hq, h.keyText hpq, shown_pure, JobUse.unplaced]
  simp only [hi, hj, ha, hb, hx, hy, hp, hq, h.keyText hpq]
  exact shown_through (h.pairs hbody) (fun _ _ _ _ hxy hpq => jobUseField_restyled h hxy hpq) rfl

omit h in
private theorem dependenciesOf_unplaced (uses : List JobUse) :
    dependenciesOf (uses.map JobUse.unplaced) = dependenciesOf uses := by
  rw [dependenciesOf, dependenciesOf, List.flatMap_map]
  congr 2
  refine funext fun use => ?_
  simp only [JobUse.unplaced, List.map_map]
  rfl

private theorem workflowField_restyled {x y : Workflow} (hxy : x.unplaced = y.unplaced)
    (hpq : PairRestyled v R Site.workflow.field p q) :
    shown Workflow.unplaced (workflowField v x p) = shown Workflow.unplaced (workflowField w y q) := by
  have hvalue := hpq.value
  rw [workflowField, workflowField, ← h.keyText hpq]
  generalize v.keyText p = key at hvalue
  obtain ⟨hp, hq⟩ | ⟨a, b, hp, hq, hab⟩ := rel_cases hvalue
  · rw [hp, hq]
    exact congrArg Except.ok hxy
  rw [hp, hq]
  dsimp only
  split
  · refine shown_bind (shown_each (h.items hab) fun _ _ => jobUse_restyled h) fun xs ys hxs => ?_
    have hjobs : x.jobs.map JobUse.unplaced = y.jobs.map JobUse.unplaced := congrArg Workflow.jobs hxy
    refine congrArg Except.ok (congrArg₂ (fun (x : Workflow) jobs => { x with jobs }) hxy ?_)
    rw [List.map_append, List.map_append, hjobs, hxs]
  · exact congrArg Except.ok (congrArg (fun x : Workflow => { x with hasTriggers := true }) hxy)
  · exact congrArg Except.ok hxy

private theorem workflow_restyled (hkey : Option.Rel (R .text) p.key q.key)
    (hvalue : Option.Rel (R .workflow) p.value q.value) :
    shown (Option.map Workflow.unplaced) (workflow v p) = shown (Option.map Workflow.unplaced) (workflow w q) := by
  unfold workflow
  obtain ⟨hp, hq⟩ | ⟨key, key', hp, hq, hkey⟩ := rel_cases hkey
  · rw [hp, hq]
  obtain ⟨ha, hb⟩ | ⟨a, b, ha, hb, hab⟩ := rel_cases hvalue
  · rw [hp, hq, ha, hb]
  simp only [hp, hq, ha, hb, h.text hkey]
  refine shown_bind (shown_through (h.pairs hab) (fun _ _ _ _ hxy hpq => workflowField_restyled h hxy hpq) rfl)
    fun x y hxy => ?_
  have hdependencies : dependenciesOf x.jobs = dependenciesOf y.jobs := by
    rw [← dependenciesOf_unplaced, ← dependenciesOf_unplaced y.jobs]
    exact congrArg (fun x : Workflow => dependenciesOf x.jobs) hxy
  exact congrArg (Except.ok ∘ some)
    (congrArg₂ (fun (x : Workflow) dependencies => { x with dependencies }) hxy hdependencies)

theorem workflows_restyled (version : Float) (hnm : R .workflows n m) :
    shown (NameMap.map Workflow.unplaced) (workflows v version n) =
      shown (NameMap.map Workflow.unplaced) (workflows w version m) := by
  refine shown_through (h.pairs hnm) (fun found found' p q hfound hpq => ?_) rfl
  rw [← h.keyText hpq]
  split
  · split
    · rw [shown_note_bind, shown_note_bind]
      exact congrArg Except.ok hfound
    · exact congrArg Except.ok hfound
  · rename_i hkey
    have hfield : Site.workflows.field (v.keyText p) = .workflow := if_neg hkey
    refine shown_bind (workflow_restyled h hpq.key (hfield ▸ hpq.value)) fun x y hxy => ?_
    obtain ⟨rfl, rfl⟩ | ⟨x, y, rfl, rfl, hxy'⟩ := option_cases hxy
    · exact congrArg Except.ok hfound
    have hname : x.name = y.name := by rw [← Workflow.name_unplaced, hxy', Workflow.name_unplaced]
    simp only [hname]
    exact insertFirst_shown hfound hxy' _ _ _

end Read
end PipelineLint
