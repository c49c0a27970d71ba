import PipelineLint.Concrete.Schema.Violations
import PipelineLint.Proofs.Data.Ways
import PipelineLint.Proofs.Text.Split
import PipelineLint.Schema.Basic

/-! # Exempt parts of data

A pointer tells the way that it was made from, whatever the names on it are (`segments_pointer`). One pointer leads to a
part of what another leads to just if its way starts with the way of the other (`isWithin_pointer_iff`). Violations at
ways are left out just where the way leads to, or through, a value of `when` that is a reference to a parameter,
whatever schema finds them (`exemption_exact`).
-/

namespace PipelineLint

namespace Schema

open Text

variable {part cs rest : List Char} {path way : List String} {p : String}

private theorem slash_notMem_escape (part : List Char) : '/' ∉ escape part := by
  rw [escape, List.mem_flatMap]
  rintro ⟨c, -, hc⟩
  rw [escapeChar] at hc
  split at hc
  · exact absurd hc (by decide)
  split at hc
  · exact absurd hc (by decide)
  · next hne => exact hne (beq_iff_eq.mpr (List.mem_singleton.mp hc).symm)

def written (path : List String) : List Char := path.flatMap fun part => '/' :: escape part.toList

@[simp]
theorem toList_pointer (path : List String) : (pointer path).toList = written path := String.toList_ofList

theorem written_append (path way : List String) : written (path ++ way) = written path ++ written way :=
  List.flatMap_append

private theorem join_escape (path : List String) (first : List Char) :
    join ['/'] (first :: path.map (escape ·.toList)) = first ++ written path := by
  induction path generalizing first with
  | nil => simp [join, List.intercalate, written]
  | cons part path ih =>
    have hrest := ih (escape part.toList)
    rw [join] at hrest
    rw [join, List.map_cons, List.intercalate_cons_cons, hrest]
    simp [written]

theorem splitAtChar_written (path : List String) :
    splitAtChar '/' (written path) = [] :: path.map (escape ·.toList) := by
  have hjoin := join_escape path []
  rw [List.nil_append] at hjoin
  rw [← hjoin]
  refine splitAtChar_join ?_ (List.cons_ne_nil _ _)
  intro part hpart
  rcases List.mem_cons.mp hpart with rfl | hpart
  · exact List.not_mem_nil
  · obtain ⟨name, -, rfl⟩ := List.mem_map.mp hpart
    exact slash_notMem_escape _

theorem map_unescape (path : List String) :
    (path.map (escape ·.toList)).map (fun part => String.ofList (unescape part)) = path := by
  simp [unescape_escape, Function.comp_def]

theorem segments_pointer (path : List String) : segments (pointer path) = path := by
  rw [segments, toList_pointer, splitAtChar_written, List.drop_one, List.tail_cons, map_unescape]

private theorem pointer_injective (h : pointer path = pointer way) : path = way := by
  rw [← segments_pointer path, h, segments_pointer]

/-- Behind a slash other names follow. -/
theorem segments_of_append (h : p.toList = written path ++ '/' :: rest) :
    segments p = path ++ (splitAtChar '/' rest).map fun part => String.ofList (unescape part) := by
  rw [segments, h, splitAtChar_append, splitAtChar_written, List.cons_append, List.drop_one, List.tail_cons,
    List.map_append, map_unescape]

theorem isWithin_iff {q : String} :
    isWithin q p = true ↔ ∃ rest, p.toList = q.toList ++ rest ∧ (rest = [] ∨ rest.head? = some '/') := by
  rw [isWithin]
  cases hdrop : dropPrefix? q.toList p.toList with
  | none =>
    simp only [Bool.false_eq_true, false_iff, not_exists, not_and]
    intro rest hrest
    cases hdrop.symm.trans (dropPrefix?_eq_some_iff.mpr hrest)
  | some rest =>
    have hp := dropPrefix?_eq_some_iff.mp hdrop
    simp [hp]

theorem isWithin_pointer_iff : isWithin (pointer way) (pointer path) = true ↔ way <+: path := by
  rw [isWithin_iff, toList_pointer, toList_pointer]
  constructor
  · rintro ⟨rest, hrest, rfl | hslash⟩
    · have hsame : pointer path = pointer way := by rw [pointer, pointer, ← written, ← written, hrest, List.append_nil]
      obtain rfl := pointer_injective hsame
      exact List.prefix_refl _
    · obtain ⟨rest, rfl⟩ := List.head?_eq_some_iff.mp hslash
      have hpointer : (pointer path).toList = written way ++ '/' :: rest := by rw [toList_pointer, hrest]
      have hpath := segments_of_append hpointer
      rw [segments_pointer] at hpath
      exact ⟨_, hpath.symm⟩
  · rintro ⟨rest, rfl⟩
    refine ⟨written rest, written_append way rest, ?_⟩
    cases rest with
    | nil => exact .inl rfl
    | cons name rest => exact .inr rfl

open Data

/-- The way ends in the name `when` of a mapping, and the value of the name is a reference to a parameter. -/
def EndsExempt (d : Data) (way : List String) : Prop :=
  ∃ before entries value, way = before ++ ["when"] ∧ Leads d before (.map entries) ∧
    ("when", .text value) ∈ entries ∧ Reference.isOnly value = true

/-- The way starts with one that ends in an exempt value. -/
def IsExempt (d : Data) (path : List String) : Prop := ∃ way, way <+: path ∧ EndsExempt d way

variable {d part : Data} {entries : List (String × Data)} {parts : List Data} {place path way : List String} {p : String}

/-- What an entry adds to the ways that end in exempt values. -/
def EndsEntry (name : String) (part : Data) (rest : List String) : Prop :=
  (∃ value, part = .text value ∧ name = "when" ∧ Reference.isOnly value = true ∧ rest = []) ∨ EndsExempt part rest

theorem endsExempt_map_iff : EndsExempt (.map entries) way ↔
    ∃ name part rest, (name, part) ∈ entries ∧ way = name :: rest ∧ EndsEntry name part rest := by
  constructor
  · rintro ⟨before, _, value, rfl, hleads, hmem, honly⟩
    cases hleads with
    | here => exact ⟨"when", _, [], hmem, rfl, .inl ⟨value, rfl, rfl, honly, rfl⟩⟩
    | entry hentry hrest => exact ⟨_, _, _, hentry, rfl, .inr ⟨_, _, value, rfl, hrest, hmem, honly⟩⟩
  · rintro ⟨name, _, _, hentry, rfl, ⟨value, rfl, rfl, honly, rfl⟩ | ⟨before, _, value, rfl, hrest, hmem, honly⟩⟩
    · exact ⟨[], entries, value, rfl, .here _, hentry, honly⟩
    · exact ⟨name :: before, _, value, rfl, .entry hentry hrest, hmem, honly⟩

theorem endsExempt_list_iff : EndsExempt (.list parts) way ↔
    ∃ (index : Nat) (part : Data) (rest : List String),
      parts[index]? = some part ∧ way = toString index :: rest ∧ EndsExempt part rest := by
  constructor
  · rintro ⟨before, _, value, rfl, hleads, hmem, honly⟩
    cases hleads with
    | item hget hrest => exact ⟨_, _, _, hget, rfl, _, _, value, rfl, hrest, hmem, honly⟩
  · rintro ⟨index, _, _, hget, rfl, before, _, value, rfl, hrest, hmem, honly⟩
    exact ⟨toString index :: before, _, value, rfl, .item hget hrest, hmem, honly⟩

theorem not_endsExempt (hmap : ∀ entries, d ≠ .map entries) (hlist : ∀ parts, d ≠ .list parts) :
    ¬ EndsExempt d way := by
  rintro ⟨before, entries, value, -, hleads, -⟩
  cases hleads with
  | here => exact hmap entries rfl
  | entry => exact hmap _ rfl
  | item => exact hlist _ rfl

theorem endsEntry_text_iff {name value : String} : EndsEntry name (.text value) way ↔
    (name == "when" && Reference.isOnly value) = true ∧ way = [] := by
  rw [EndsEntry, or_iff_left (not_endsExempt (by simp) (by simp))]
  simp [and_assoc]

theorem endsEntry_iff {name : String} (h : ∀ value, part ≠ .text value) :
    EndsEntry name part way ↔ EndsExempt part way :=
  or_iff_right fun ⟨value, hvalue, _⟩ => h value hvalue

theorem mem_exemptEntries_cons_iff {name : String}
    (h : p ∈ exemptAt (place ++ [name]) part ↔ ∃ way, EndsExempt part way ∧ p = pointer (place ++ [name] ++ way)) :
    p ∈ exemptEntries place ((name, part) :: entries) ↔
      (∃ rest, EndsEntry name part rest ∧ p = pointer (place ++ name :: rest)) ∨ p ∈ exemptEntries place entries := by
  by_cases htext : ∃ value, part = .text value
  · obtain ⟨value, rfl⟩ := htext
    rw [exemptEntries, List.mem_append]
    simp only [endsEntry_text_iff]
    refine or_congr_left ?_
    split
    · next hexempt => simp [hexempt]
    · next hexempt => simp [hexempt]
  · have hnot (value : String) : part ≠ .text value := fun hvalue => htext ⟨value, hvalue⟩
    rw [exemptEntries, List.mem_append, h]
    · simp only [endsEntry_iff hnot, List.append_assoc, List.singleton_append]
    · exact hnot

mutual
theorem mem_exemptAt_iff (place : List String) : ∀ d : Data,
    p ∈ exemptAt place d ↔ ∃ way, EndsExempt d way ∧ p = pointer (place ++ way)
  | .map entries => by
    rw [exemptAt, mem_exemptEntries_iff place entries]
    simp only [endsExempt_map_iff]
    constructor
    · rintro ⟨name, part, rest, hmem, hend, rfl⟩
      exact ⟨_, ⟨name, part, rest, hmem, rfl, hend⟩, rfl⟩
    · rintro ⟨_, ⟨name, part, rest, hmem, rfl, hend⟩, rfl⟩
      exact ⟨name, part, rest, hmem, hend, rfl⟩
  | .list parts => by
    rw [exemptAt, mem_exemptItems_iff place 0 parts]
    simp only [endsExempt_list_iff, Nat.zero_add]
    constructor
    · rintro ⟨index, part, rest, hget, hend, rfl⟩
      exact ⟨_, ⟨index, part, rest, hget, rfl, hend⟩, rfl⟩
    · rintro ⟨_, ⟨index, part, rest, hget, rfl, hend⟩, rfl⟩
      exact ⟨index, part, rest, hget, hend, rfl⟩
  | .null | .bool _ | .integer _ | .float _ | .text _ => by simp [exemptAt, not_endsExempt]
theorem mem_exemptEntries_iff (place : List String) : ∀ entries : List (String × Data),
    p ∈ exemptEntries place entries ↔ ∃ name part rest, (name, part) ∈ entries ∧ EndsEntry name part rest ∧
      p = pointer (place ++ name :: rest)
  | [] => by simp [exemptEntries]
  | (name, part) :: entries => by
    rw [mem_exemptEntries_cons_iff (mem_exemptAt_iff (place ++ [name]) part), mem_exemptEntries_iff place entries]
    constructor
    · rintro (⟨rest, hend, rfl⟩ | ⟨other, part', rest, hmem, hend, rfl⟩)
      · exact ⟨name, part, rest, List.mem_cons_self, hend, rfl⟩
      · exact ⟨other, part', rest, List.mem_cons_of_mem _ hmem, hend, rfl⟩
    · rintro ⟨other, part', rest, hmem, hend, rfl⟩
      rcases List.mem_cons.mp hmem with heq | hmem
      · obtain ⟨rfl, rfl⟩ := Prod.mk.inj heq
        exact .inl ⟨rest, hend, rfl⟩
      · exact .inr ⟨other, part', rest, hmem, hend, rfl⟩
theorem mem_exemptItems_iff (place : List String) (index : Nat) : ∀ parts : List Data,
    p ∈ exemptItems place index parts ↔ ∃ (k : Nat) (part : Data) (rest : List String), parts[k]? = some part ∧
      EndsExempt part rest ∧ p = pointer (place ++ toString (index + k) :: rest)
  | [] => by simp [exemptItems]
  | part :: parts => by
    rw [exemptItems, List.mem_append, mem_exemptAt_iff (place ++ [toString index]) part,
      mem_exemptItems_iff place (index + 1) parts]
    constructor
    · rintro (⟨rest, hend, rfl⟩ | ⟨k, part', rest, hget, hend, rfl⟩)
      · exact ⟨0, part, rest, rfl, hend, by simp⟩
      · exact ⟨k + 1, part', rest, hget, hend, by rw [Nat.add_right_comm, Nat.add_assoc]⟩
    · rintro ⟨k, part', rest, hget, hend, rfl⟩
      cases k with
      | zero =>
        obtain rfl : part = part' := Option.some.inj hget
        exact .inl ⟨rest, hend, by simp⟩
      | succ k => exact .inr ⟨k, part', rest, hget, hend, by rw [Nat.add_right_comm, Nat.add_assoc]⟩
end

theorem any_isWithin_iff :
    (exemptAt [] d).any (fun exempt => isWithin exempt (pointer path)) = true ↔ IsExempt d path := by
  rw [List.any_eq_true, IsExempt]
  constructor
  · rintro ⟨exempt, hmem, hwithin⟩
    obtain ⟨way, hend, rfl⟩ := (mem_exemptAt_iff [] d).mp hmem
    exact ⟨way, isWithin_pointer_iff.mp hwithin, hend⟩
  · rintro ⟨way, hpart, hend⟩
    exact ⟨pointer way, (mem_exemptAt_iff [] d).mpr ⟨way, hend, rfl⟩, isWithin_pointer_iff.mpr hpart⟩

def unexempted (d : Data) (reported : List Violation) : List Violation :=
  reported.filter fun v => !(exemptAt [] d).any fun exempt => isWithin exempt v.pointer

theorem mem_unexempted_iff {reported : List Violation} {v : Violation} (hv : v.pointer = pointer path) :
    v ∈ unexempted d reported ↔ v ∈ reported ∧ ¬ IsExempt d path := by
  rw [unexempted, List.mem_filter, hv, ← any_isWithin_iff, Bool.not_eq_true', Bool.not_eq_true]

/-- The violations that a schema finds in data stand at ways that lead to parts of the data. -/
def PointsInto (schema : Schema) (d : Data) : Prop :=
  ∀ v ∈ schema.errors d, ∃ way part, v.pointer = pointer way ∧ Leads d way part

theorem PointsInto.path_of_mem {schema : Schema} {v : Violation} (h : schema.PointsInto d) (hv : v ∈ schema.errors d) :
    v.pointer = pointer v.path ∧ ∃ part, Leads d v.path part := by
  obtain ⟨way, part, hpointer, hleads⟩ := h v hv
  have hpath : v.path = way := by rw [Violation.path, hpointer, segments_pointer]
  rw [hpath]
  exact ⟨hpointer, part, hleads⟩

/-- Pointers tell their ways, and one is within another just if its way starts with the way of the other. Of violations
that are reported at ways, those are left out whose way leads to or through an exempt value, and no others. So it is
with the violations that a schema finds, if they stand at ways that lead to parts of the data; of those that are not
left out none is lost, none is told more often, and they keep their order. In decoded data a way leads to one part at
most. -/
theorem exemption_exact (schema : Schema) (d : Data) :
    (∀ path, segments (pointer path) = path) ∧
    (∀ way path, isWithin (pointer way) (pointer path) = true ↔ way <+: path) ∧
    (∀ reported v path, v ∈ reported → v.pointer = pointer path →
      v.path = path ∧ (v ∉ unexempted d reported ↔ IsExempt d path)) ∧
    (schema.PointsInto d → ∀ v ∈ schema.errors d, v.pointer = pointer v.path ∧ (∃ part, Leads d v.path part) ∧
      (v ∉ schema.violations d ↔ IsExempt d v.path)) ∧
    (schema.violations d).Sublist (schema.errors d) ∧
    (∀ v ∈ schema.violations d, (schema.violations d).count v = (schema.errors d).count v) ∧
    ∀ loader : Load.Loader, loader.IsStandard → ∀ text, loader.decode text = .ok d →
      ∀ way part other, Leads d way part → Leads d way other → part = other := by
  refine ⟨segments_pointer, fun _ _ => isWithin_pointer_iff, ?_, ?_, List.filter_sublist, ?_, ?_⟩
  · intro reported v path hmem hv
    refine ⟨by rw [Violation.path, hv, segments_pointer], ?_⟩
    rw [mem_unexempted_iff hv, and_iff_right hmem, not_not]
  · intro hpoints v hmem
    obtain ⟨hv, hleads⟩ := hpoints.path_of_mem hmem
    refine ⟨hv, hleads, ?_⟩
    show v ∉ unexempted d (schema.errors d) ↔ _
    rw [mem_unexempted_iff hv, and_iff_right hmem, not_not]
  · intro v hmem
    exact List.count_filter (List.mem_filter.mp hmem).2
  · exact fun loader hloader text htext way part other => Leads.unique (hasDistinctNames_of_decode hloader htext)

/-- A job with a slash in its name, whose `when` is a reference to a parameter. -/
def referringJob : List Char :=
  "a/b:\n  when: << parameters.run >>\n  whenever: << parameters.run >>\n".toList

def emptyJob : Schema := ⟨fun d => Rule.violationsAt [] d (.properties [("a/b", .others [] (.always false))])⟩

/-- Only `when` is exempt, and not a name that starts like it. -/
theorem exemption_exact_of_referringJob :
    let v : Violation := ⟨"/a~1b/when", "False schema does not allow \"<< parameters.run >>\""⟩
    let w : Violation := ⟨"/a~1b/whenever", "False schema does not allow \"<< parameters.run >>\""⟩
    ∃ d, Load.Loader.standard.decode referringJob = .ok d ∧ emptyJob.PointsInto d ∧ emptyJob.errors d = [v, w] ∧
      emptyJob.violations d = [w] ∧ v.path = ["a/b", "when"] ∧ IsExempt d v.path ∧ ¬ IsExempt d w.path ∧
      ∃ part, Leads d v.path part ∧ ∀ other, Leads d v.path other → other = part := by
  intro v w
  have hread : (Load.Loader.standard.decode referringJob).toOption.map (fun d => (emptyJob.errors d,
      emptyJob.violations d, (d.at? ["a/b", "when"]).isSome, (d.at? ["a/b", "whenever"]).isSome)) =
      some ([v, w], [w], true, true) := by
    decide +kernel
  obtain ⟨d, hd, hfacts⟩ := Option.map_eq_some_iff.mp hread
  simp only [Prod.mk.injEq, Option.isSome_iff_exists] at hfacts
  obtain ⟨hall, hkept, ⟨part, hpart⟩, ⟨other, hother⟩⟩ := hfacts
  have hdecode := eq_ok_of_toOption hd
  have hpoints : emptyJob.PointsInto d := by
    rw [PointsInto, hall]
    refine List.forall_mem_cons.mpr ⟨⟨_, part, by decide, leads_of_at? hpart⟩, List.forall_mem_singleton.mpr ?_⟩
    exact ⟨_, other, by decide, leads_of_at? hother⟩
  obtain ⟨-, -, -, hexact, -, -, hunique⟩ := exemption_exact emptyJob d
  obtain ⟨-, ⟨part, hpart⟩, hv⟩ := hexact hpoints v (by rw [hall]; exact List.mem_cons_self)
  obtain ⟨-, -, hw⟩ := hexact hpoints w (by rw [hall]; exact List.mem_cons_of_mem _ List.mem_cons_self)
  rw [hkept] at hv hw
  exact ⟨d, hdecode, hpoints, hall, hkept, by decide +kernel, hv.mp (by decide), fun h => hw.mpr h List.mem_cons_self,
    part, hpart, fun other hother => hunique _ Load.Loader.isStandard_standard _ hdecode _ _ _ hother hpart⟩

end Schema

end PipelineLint
