import PipelineLint.Document.Jobs
import PipelineLint.Proofs.Document.Returns

/-! # Assigned parameters

Steps that invoke commands, jobs of workflows and executors of jobs assign parameters with the pairs of a mapping. A
pair whose value is a sequence, a mapping or a scalar leaves an entry, unless its key has a meaning of its own there or
its value is an unquoted integer that does not fit: such an integer is left out.
-/

namespace PipelineLint

namespace Assignments

theorem contains_insert (as : Assignments) (a : Assignment) (name : String) :
    (as.insert a).contains name = (a.name == name || as.contains name) := by
  induction as with
  | nil => simp [insert, contains]
  | cons b as ih =>
    by_cases h : b.name = a.name
    · simp [insert, contains, h]
    · simp only [contains, insert, beq_iff_eq, h, if_false, List.any_cons] at ih ⊢
      rw [ih, Bool.or_left_comm]

theorem contains_insert_self (as : Assignments) (a : Assignment) : (as.insert a).contains a.name = true := by
  simp [contains_insert]

theorem contains_insert_of_contains {as : Assignments} {name : String} (h : as.contains name = true) (a : Assignment) :
    (as.insert a).contains name = true := by
  simp [contains_insert, h]

/-- Puts values into those of a call, where there are any. -/
def insertAll (as : Assignments) (read : List (Option Assignment)) : Assignments :=
  read.foldl (fun as a => match a with
    | some a => as.insert a
    | none => as) as

private theorem contains_insertAll {read : List (Option Assignment)} {as : Assignments} {name : String} :
    (as.insertAll read).contains name = true ↔ as.contains name = true ∨ ∃ a, some a ∈ read ∧ a.name = name := by
  induction read generalizing as with
  | nil => simp [insertAll]
  | cons found read ih =>
    cases found with
    | none => simpa [insertAll] using ih
    | some a =>
      refine (@ih (as.insert a)).trans ?_
      simp only [contains_insert, Bool.or_eq_true, beq_iff_eq, List.mem_cons, Option.some.injEq, or_and_right,
        exists_or, exists_eq_left]
      rw [or_comm (a := a.name = name), or_assoc]

end Assignments

namespace Read

open Yaml Reads

variable (v : View)

def IsInteger (n : Node) : Prop :=
  n.kind = .plainScalar ∧ n.namedChildren.head?.map Node.kind = some .integerScalar

/-- What a value holds can be read: it is a sequence, a mapping or a scalar, and if it is an unquoted integer, then in
decimal digits and of at most 64 bits. -/
def IsReadable (content : Node) : Prop :=
  content.kind.isSequence ∨ content.kind.isMapping ∨
    content.kind.isScalar ∧ (IsInteger content → (Text.signed? 64 (v.text content).toList).isSome)

/-- An unquoted integer in decimal digits that takes more than 64 bits. -/
def IsTooLarge (content : Node) : Prop :=
  IsInteger content ∧ Text.signed? 64 (v.text content).toList = none ∧
    ∃ bits, (Text.signed? bits (v.text content).toList).isSome

/-- A pair has a key, and its value, through aliases, has a content with a property. -/
def HasContent (P : Node → Prop) (p : Pair) : Prop :=
  p.key.isSome ∧ ∃ raw content, p.rawValue = some raw ∧ v.content? raw = some content ∧ P content

def Assigns (p : Pair) : Prop := HasContent v (IsReadable v) p

variable {v}

private theorem read?_isSome_of_isWord {text : String} (h : Truth.isWord text = true) :
    (Truth.read? text).isSome = true := by
  simp only [Truth.isWord, Truth.isTruth, Bool.and_eq_true, Bool.or_eq_true] at h
  unfold Truth.read?
  split
  · rfl
  · next hfalse => rw [if_pos (h.1.resolve_left hfalse)]; rfl

theorem isSome_scalarValue?_iff {n : Node} :
    (scalarValue? v n).isSome = true ↔ (IsInteger n → (Text.signed? 64 (v.text n).toList).isSome = true) := by
  unfold scalarValue? IsInteger
  by_cases hplain : n.kind = .plainScalar
  · simp only [hplain, if_true, true_and]
    split
    · next hkind => simp [hkind]
    · next hkind => simp [hkind]
    · next hbool hinteger =>
      rw [forall_prop_of_false hinteger, iff_true]
      split
      · next hword => simpa using read?_isSome_of_isWord hword
      · rfl
  · simp [hplain]

/-- What is made of a value that is read, if there is one, has its name. -/
theorem always_named {read : Reads (Option Value)} {Q : Prop} (h : Always (fun found => found.isSome = true ↔ Q) read)
    (name : String) (f : Value → Value) (valueRange range : Range) :
    Always (fun found => (found.isSome = true ↔ Q) ∧ ∀ a ∈ found, a.name = name)
      (read >>= fun found => pure (found.map fun value => Assignment.mk name (f value) valueRange range)) := by
  refine h.bind fun found hfound => always_pure ⟨by simpa using hfound, fun (a : Assignment) ha => ?_⟩
  obtain ⟨value, -, rfl⟩ := Option.map_eq_some_iff.mp ha
  rfl

/-- A pair is read as a value under its key just if it assigns a parameter. -/
theorem always_assignment (fuel : Nat) (p : Pair) :
    Always (fun found => (found.isSome = true ↔ Assigns v p) ∧ ∀ a ∈ found, a.name = v.keyText p)
      (assignment v fuel p) := by
  cases fuel with
  | zero => exact always_endless
  | succ fuel =>
    unfold assignment Assigns HasContent
    cases hkey : p.key with
    | none => exact always_pure (by simp)
    | some key =>
      have hname : v.keyText p = v.text key := by simp [View.keyText, View.textOrEmpty, hkey]
      cases hraw : p.rawValue with
      | none => exact always_bind fun _ => always_pure (by simp)
      | some raw =>
        dsimp only
        rw [hname]
        cases hcontent : v.content? raw with
        | none => exact always_named (always_pure (by simp [hcontent])) _ _ _ _
        | some content =>
          dsimp only
          split
          · next hsequence =>
            exact always_bind fun _ => always_named (always_pure (by simp [hcontent, IsReadable, hsequence])) _ _ _ _
          · next hsequence =>
            split
            · next hmapping =>
              exact always_bind fun _ => always_named (always_pure (by simp [hcontent, IsReadable, hmapping])) _ _ _ _
            · next hmapping =>
              split
              · next hscalar =>
                refine always_named (always_pure ?_) _ _ _ _
                simp [hcontent, IsReadable, hsequence, hmapping, hscalar, isSome_scalarValue?_iff]
              · next hscalar =>
                refine always_named (always_pure ?_) _ _ _ _
                simp [hcontent, IsReadable, hsequence, hmapping, hscalar]

/-- An integer that takes more than 64 bits is read as no value. -/
theorem always_none_of_isTooLarge {fuel : Nat} {p : Pair} (h : HasContent v (IsTooLarge v) p) :
    Always (· = none) (assignment v fuel p) := by
  refine (always_assignment fuel p).mono fun found hfound => Option.not_isSome_iff_eq_none.mp fun hsome => ?_
  obtain ⟨-, raw, content, hraw, hcontent, hinteger, hnone, -⟩ := h
  obtain ⟨-, raw', content', hraw', hcontent', hreadable⟩ := hfound.1.mp hsome
  obtain rfl := Option.some.inj (hraw.symm.trans hraw')
  obtain rfl := Option.some.inj (hcontent.symm.trans hcontent')
  simp [IsReadable, hinteger.1, Kind.isSequence, Kind.isMapping, hinteger, hnone] at hreadable

/-- A pair that assigns a parameter has an entry among values. -/
def HasEntry (v : View) (as : Assignments) (p : Pair) : Prop := Assigns v p → as.contains (v.keyText p) = true

theorem always_assignments (fuel : Nat) (ps : List Pair) :
    Always (fun as => ∀ p ∈ ps, HasEntry v as p) (assignments v fuel ps) := by
  cases fuel with
  | zero => exact always_endless
  | succ fuel =>
    rw [assignments]
    refine (always_each fun p _ => always_assignment fuel p).bind fun read hread => always_pure fun p hp hassigns => ?_
    obtain ⟨found, hfound, hsome, hname⟩ := hread.1 p hp
    obtain ⟨a, rfl⟩ := Option.isSome_iff_exists.mp (hsome.mpr hassigns)
    exact Assignments.contains_insertAll.mpr (.inr ⟨a, hfound, hname a rfl⟩)

end Read

end PipelineLint
