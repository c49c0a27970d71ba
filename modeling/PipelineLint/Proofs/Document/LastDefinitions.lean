import PipelineLint.Concrete.Grammar.Stream
import PipelineLint.Document.Parse
import PipelineLint.Proofs.Document.Returns
import PipelineLint.Proofs.NameMap

/-! # Last definitions count

Orbs and parameters are put into their maps as they are read, without regard to what is there. So the last definition
of each name counts, at the place of the first, and nothing is said about the others: `last_definitions_count`.
-/

namespace PipelineLint

namespace LocalOrb

def byName (orbs : List LocalOrb) : NameMap LocalOrb := ⟨orbs.map fun o => (o.name, o)⟩

theorem get?_byName (orbs : List LocalOrb) (name : String) : (byName orbs).get? name = find? orbs name := by
  simp only [NameMap.get?, byName, find?, List.find?_map, Option.map_map]
  exact congrFun Option.map_id _

theorem keys_byName (orbs : List LocalOrb) : (byName orbs).keys = orbs.map LocalOrb.name := by
  simp [NameMap.keys, byName]

private theorem byName_insert (orbs : List LocalOrb) (o : LocalOrb) :
    byName (insert orbs o) = (byName orbs).insert o.name o := by
  induction orbs with
  | nil => rfl
  | cons other orbs ih =>
    simp only [byName, NameMap.insert, NameMap.mk.injEq] at ih ⊢
    by_cases h : other.name = o.name
    · simp [insert, NameMap.setIn, h]
    · simp [insert, NameMap.setIn, h, ih]

end LocalOrb

namespace Reads

variable {α β σ : Type}

/-- Reads something and puts it into a state, whatever that holds. -/
def putting (read : β → Reads (Option α)) (put : σ → α → σ) (s : σ) (x : β) : Reads σ := do
  match ← read x with
  | some a => pure (put s a)
  | none => pure s

private theorem returns_putting {read : β → Reads (Option α)} {put : σ → α → σ} {s : σ} {x : β} :
    Returns (putting read put s x) ↔ Returns (read x) := by
  refine returns_bind_of_returns fun a => ?_
  cases a <;> exact returns_pure _

private theorem of_through_putting_eq_ok {read : β → Reads (Option α)} {put : σ → α → σ} {s s' : σ} {xs : List β}
    {ds : List Diagnostic} (h : through (putting read put) s xs = .ok (s', ds)) :
    s' = (xs.filterMap fun x => (read x).given).foldl put s ∧ ds = xs.flatMap fun x => (read x).findings := by
  induction xs generalizing s ds with
  | nil => exact pure_eq_ok_iff.mp h
  | cons x xs ih =>
    obtain ⟨next, said, after, hstep, hrest, rfl⟩ := bind_eq_ok_iff.mp h
    obtain ⟨entity, own, told, hread, hput, rfl⟩ := bind_eq_ok_iff.mp hstep
    obtain ⟨rfl, rfl⟩ := ih hrest
    have hgiven : (read x).given = entity := by simp [given, hread]
    have hfindings : (read x).findings = own := by simp [findings, hread]
    cases entity with
    | none =>
      obtain ⟨rfl, rfl⟩ := pure_eq_ok_iff.mp hput
      simp [hgiven, hfindings]
    | some a =>
      obtain ⟨rfl, rfl⟩ := pure_eq_ok_iff.mp hput
      simp [hgiven, hfindings]

private theorem of_each_eq_ok {read : β → Reads (Option α)} {xs : List β} {ys : List (Option α)} {ds : List Diagnostic}
    (h : each read xs = .ok (ys, ds)) :
    ys.filterMap id = (xs.filterMap fun x => (read x).given) ∧ ds = xs.flatMap fun x => (read x).findings := by
  induction xs generalizing ys ds with
  | nil =>
    obtain ⟨rfl, rfl⟩ := pure_eq_ok_iff.mp h
    exact ⟨rfl, rfl⟩
  | cons x xs ih =>
    obtain ⟨y, own, ys, after, hread, heach, rfl, rfl⟩ := each_cons_eq_ok_iff.mp h
    obtain ⟨hys, rfl⟩ := ih heach
    have hgiven : (read x).given = y := by simp [given, hread]
    have hfindings : (read x).findings = own := by simp [findings, hread]
    refine ⟨?_, by simp [hfindings]⟩
    rw [List.filterMap_cons, List.filterMap_cons, hgiven]
    cases y with
    | none => exact hys
    | some a => exact congrArg (a :: ·) hys

end Reads

namespace NameMap

variable {α β : Type} {nameOf : α → String}

private theorem HoldsLast.foldl {before : List α} {m : NameMap α} (h : m.HoldsLast nameOf before) (defs : List α) :
    (defs.foldl (fun m a => m.insert (nameOf a) a) m).HoldsLast nameOf (before ++ defs) := by
  induction defs generalizing before m with
  | nil => simpa using h
  | cons a defs ih => simpa using ih (h.insert a)

private theorem find?_reverse_of_nodup {defs : List α} (h : (defs.map nameOf).Nodup) (name : String) :
    defs.reverse.find? (nameOf · == name) = defs.find? (nameOf · == name) := by
  induction defs with
  | nil => rfl
  | cons a defs ih =>
    obtain ⟨hnew, hrest⟩ := List.nodup_cons.mp h
    rw [List.reverse_cons, List.find?_append, ih hrest]
    by_cases hname : nameOf a = name
    · have hnone : defs.find? (nameOf · == name) = none := by
        refine List.find?_eq_none.mpr fun b hb => ?_
        rw [← hname, beq_iff_eq]
        exact fun heq => hnew (heq ▸ List.mem_map_of_mem hb)
      simp [hnone, hname]
    · simp [hname]

/-- Where no name is defined twice, the last definition of a name is the first one. -/
theorem HoldsLast.holdsFirst {defs : List α} {m : NameMap α} (h : m.HoldsLast nameOf defs)
    (hnodup : (defs.map nameOf).Nodup) : m.HoldsFirst nameOf defs :=
  ⟨h.keys, fun name => (h.get? name).trans (find?_reverse_of_nodup hnodup name)⟩

end NameMap

namespace Read

open Yaml Reads

variable (v : View) (nested : List Char → Except Endless Document) (n : Node)

def declarations : List Parameter := (v.pairs n).filterMap fun p => (parameter v p).given

structure LastParameterCounts (result : Reads Parameters) : Prop where
  /-- Reading ends if it does for each declaration. -/
  returns : Returns result ↔ ∀ p ∈ v.pairs n, Returns (parameter v p)
  last : ∀ m ds, result = .ok (m, ds) → m.HoldsLast Parameter.name (declarations v n)
  /-- Nothing is found but in each declaration itself. -/
  silent : ∀ m ds, result = .ok (m, ds) → ds = (v.pairs n).flatMap fun p => (parameter v p).findings
  /-- If no name is declared twice, the map holds the first declaration of each. -/
  single : ∀ m ds, result = .ok (m, ds) → ((declarations v n).map Parameter.name).Nodup →
    m.HoldsFirst Parameter.name (declarations v n)

private theorem of_parameters_eq_ok {v : View} {n : Node} {m : Parameters} {ds : List Diagnostic}
    (h : parameters v n = .ok (m, ds)) :
    m.HoldsLast Parameter.name (declarations v n) ∧ ds = (v.pairs n).flatMap fun p => (parameter v p).findings := by
  obtain ⟨read, own, after, heach, hpure, rfl⟩ := bind_eq_ok_iff.mp h
  obtain ⟨rfl, rfl⟩ := pure_eq_ok_iff.mp hpure
  obtain ⟨hread, rfl⟩ := of_each_eq_ok heach
  rw [hread, List.append_nil]
  exact ⟨NameMap.holdsLast_ofList Parameter.name _, rfl⟩

private theorem lastParameterCounts : LastParameterCounts v n (parameters v n) where
  returns := (returns_bind_of_returns fun _ => returns_pure _).trans returns_each
  last _ _ h := (of_parameters_eq_ok h).1
  silent _ _ h := (of_parameters_eq_ok h).2
  single _ _ h hnodup := (of_parameters_eq_ok h).1.holdsFirst hnodup

def orbDefinitions : List (OrbUse × Option LocalOrb) := (v.pairs n).filterMap fun p => (orb v nested p).given

def localOrbDefinitions : List LocalOrb := (orbDefinitions v nested n).filterMap Prod.snd

def orbUses : List OrbUse := (orbDefinitions v nested n).map Prod.fst

def putOrb (found : NameMap OrbUse × List LocalOrb) (orb : OrbUse × Option LocalOrb) :
    NameMap OrbUse × List LocalOrb :=
  (found.1.insert orb.1.name orb.1, orb.2.elim found.2 (LocalOrb.insert found.2))

structure LastOrbCounts (result : Reads (NameMap OrbUse × List LocalOrb)) : Prop where
  /-- Reading ends if it does for each definition. -/
  returns : Returns result ↔ ∀ p ∈ v.pairs n, Returns (orb v nested p)
  /-- The map holds the last definition of each name. -/
  last : ∀ uses bodies ds, result = .ok ((uses, bodies), ds) → uses.HoldsLast OrbUse.name (orbUses v nested n)
  /-- Each local orb is the last one of its name, whatever else is defined under that name. -/
  lastLocal : ∀ uses bodies ds, result = .ok ((uses, bodies), ds) →
    bodies.map LocalOrb.name = ((localOrbDefinitions v nested n).map LocalOrb.name).eraseDups ∧
      ∀ name, LocalOrb.find? bodies name = (localOrbDefinitions v nested n).reverse.find? (·.name == name)
  /-- Nothing is found but in each definition itself. -/
  silent : ∀ uses bodies ds, result = .ok ((uses, bodies), ds) →
    ds = (v.pairs n).flatMap fun p => (orb v nested p).findings
  /-- If no name is defined twice, the map holds the first definition of each. -/
  single : ∀ uses bodies ds, result = .ok ((uses, bodies), ds) →
    ((orbUses v nested n).map OrbUse.name).Nodup → uses.HoldsFirst OrbUse.name (orbUses v nested n)

theorem orbs_eq : orbs v nested n = through (putting (orb v nested) putOrb) (∅, []) (v.pairs n) := by
  refine congrArg (through · (∅, []) (v.pairs n)) (funext fun found => funext fun p => ?_)
  refine congrArg (orb v nested p >>= ·) (funext fun read => ?_)
  cases read with
  | none => rfl
  | some orb =>
    obtain ⟨use, body⟩ := orb
    cases body <;> rfl

private theorem foldl_putOrb (orbs : List (OrbUse × Option LocalOrb)) (found : NameMap OrbUse × List LocalOrb) :
    (orbs.foldl putOrb found).1 = (orbs.map Prod.fst).foldl (fun m use => m.insert use.name use) found.1 ∧
      LocalOrb.byName (orbs.foldl putOrb found).2 =
        (orbs.filterMap Prod.snd).foldl (fun m o => m.insert o.name o) (LocalOrb.byName found.2) := by
  induction orbs generalizing found with
  | nil => exact ⟨rfl, rfl⟩
  | cons orb orbs ih =>
    obtain ⟨use, body⟩ := orb
    cases body with
    | none => exact ih (putOrb found (use, none))
    | some o =>
      have h := ih (putOrb found (use, some o))
      refine ⟨h.1, h.2.trans ?_⟩
      simp [putOrb, LocalOrb.byName_insert]

theorem of_orbs_eq_ok {v : View} {nested : List Char → Except Endless Document} {n : Node} {uses : NameMap OrbUse}
    {bodies : List LocalOrb} {ds : List Diagnostic} (h : orbs v nested n = .ok ((uses, bodies), ds)) :
    uses.HoldsLast OrbUse.name (orbUses v nested n) ∧
      (LocalOrb.byName bodies).HoldsLast LocalOrb.name (localOrbDefinitions v nested n) ∧
      ds = (v.pairs n).flatMap fun p => (orb v nested p).findings := by
  rw [orbs_eq] at h
  obtain ⟨hfold, rfl⟩ := of_through_putting_eq_ok h
  obtain ⟨huses, hbodies⟩ := foldl_putOrb (orbDefinitions v nested n) (∅, [])
  obtain ⟨rfl, rfl⟩ := Prod.mk.inj hfold
  refine ⟨?_, ?_, rfl⟩
  · exact huses ▸ NameMap.HoldsLast.empty.foldl _
  · exact hbodies ▸ NameMap.HoldsLast.empty.foldl _

private theorem lastOrbCounts : LastOrbCounts v nested n (orbs v nested n) where
  returns := by
    have hput : ∀ found, ∀ p ∈ v.pairs n,
        Returns (putting (orb v nested) putOrb found p) ↔ Returns (orb v nested p) := fun _ _ _ => returns_putting
    rw [orbs_eq]
    exact returns_through hput
  last _ _ _ h := (of_orbs_eq_ok h).1
  lastLocal _ bodies _ h := by
    obtain ⟨-, hbodies, -⟩ := of_orbs_eq_ok h
    exact ⟨by rw [← LocalOrb.keys_byName, hbodies.keys], fun name => by rw [← LocalOrb.get?_byName, hbodies.get?]⟩
  silent _ _ _ h := (of_orbs_eq_ok h).2.2
  single _ _ _ h hnodup := (of_orbs_eq_ok h).1.holdsFirst hnodup

/-- Of orbs and of parameters the last definition of a name counts, and nothing is said about the others. -/
theorem last_definitions_count :
    LastParameterCounts v n (parameters v n) ∧ LastOrbCounts v nested n (orbs v nested n) :=
  ⟨lastParameterCounts v n, lastOrbCounts v nested n⟩

/-- A parameter and an orb that are defined twice. The first definitions are lost, and nothing is said. -/
theorem first_definitions_lost :
    (Document.parse .strict ("parameters:\n  to:\n    type: string\n  to:\n    type: boolean\n" ++
        "orbs:\n  node: acme/node@1.0.0\n  node: acme/node@2.0.0\n").toList).toOption.map
      (fun d => (d.pipelineParameters.values.map fun p => (p.name, p.type.word),
        d.orbs.values.map fun use => (use.name, use.url.version), d.diagnostics)) =
    some ([("to", "boolean")], [("node", "2.0.0")], []) := by
  decide +kernel

end Read

end PipelineLint
