import PipelineLint.Concrete.Grammar.Stream
import PipelineLint.Proofs.Document.LastDefinitions
import PipelineLint.Proofs.Document.LocalOrb

/-! # Entries of orbs and their bodies

The orbs of a document are kept twice: each name with its entry, and the bodies of local orbs. Both keep what was put
last under a name, but an entry without a body puts nothing among the bodies. So a name that is declared as a local orb
has the body of its entry, while a body stays where a later entry declares its name as an orb of the registry.
-/

namespace PipelineLint

open Yaml

namespace Document

/-- The bodies are those of the names that are declared as local orbs, and stand where these are declared. -/
def IsCoherentAt (d : Document) (name : String) : Prop :=
  ((LocalOrb.find? d.localOrbs name).isSome = true ↔ ∃ use, d.orbs.get? name = some use ∧ use.url.isLocal = true) ∧
    ∀ use o, d.orbs.get? name = some use → LocalOrb.find? d.localOrbs name = some o → use.url.isLocal = true →
      o.range = use.valueRange

end Document

namespace Read

open Reads

def orbsValue? (tree : Tree) : Option Node :=
  tree.top?.bind fun top => ((View.ofTree tree).find? top "orbs").bind (·.value)

/-- The entries of the section of orbs that can be read, in order: each orb, with its body if it has one. -/
def orbEntries (nested : List Char → Except Endless Document) (tree : Tree) : List (OrbUse × Option LocalOrb) :=
  (orbsValue? tree).elim [] (orbDefinitions (.ofTree tree) nested)

/-- An entry has a body just if it declares a local orb; the body has the name of the orb and stands at its value. -/
structure IsEntry (entry : OrbUse × Option LocalOrb) : Prop where
  isLocal : entry.1.url.isLocal = entry.2.isSome
  name : ∀ o ∈ entry.2, o.name = entry.1.name
  range : ∀ o ∈ entry.2, o.range = entry.1.valueRange

def lastNamed? (entries : List (OrbUse × Option LocalOrb)) (name : String) : Option (OrbUse × Option LocalOrb) :=
  entries.reverse.find? (·.1.name == name)

def lastBody? (entries : List (OrbUse × Option LocalOrb)) (name : String) : Option LocalOrb :=
  (entries.filterMap Prod.snd).reverse.find? (·.name == name)

/-- The name has a body, and its last entry has none. -/
def Outlives (entries : List (OrbUse × Option LocalOrb)) (name : String) : Prop :=
  (∃ entry ∈ entries, entry.1.name = name ∧ entry.2.isSome = true) ∧
    ∃ entry, lastNamed? entries name = some entry ∧ entry.2 = none

section Entries

variable {v : View} {nested : List Char → Except Endless Document} {entries : List (OrbUse × Option LocalOrb)}
  {name : String}

private theorem always_orb_isEntry (p : Pair) :
    Always (fun found => ∀ entry ∈ found, IsEntry entry) (orb v nested p) := by
  unfold orb
  split
  · dsimp only
    split
    · refine always_pure ?_
      rintro _ ⟨⟩
      exact ⟨isLocal_parse _, by rintro _ ⟨⟩, by rintro _ ⟨⟩⟩
    · split
      · exact always_pure (by rintro _ ⟨⟩)
      · split
        · exact always_endless
        · refine always_bind fun _ => always_pure ?_
          rintro _ ⟨⟩
          exact ⟨rfl, by rintro _ ⟨⟩; rfl, by rintro _ ⟨⟩; rfl⟩
    · exact always_pure (by rintro _ ⟨⟩)
  · exact always_pure (by rintro _ ⟨⟩)

private theorem isEntry_of_mem {n : Node} : ∀ entry ∈ orbDefinitions v nested n, IsEntry entry := by
  intro entry hentry
  obtain ⟨p, -, hgiven⟩ := List.mem_filterMap.mp hentry
  cases horb : orb v nested p with
  | error e => simp [given, horb] at hgiven
  | ok read =>
    obtain ⟨found, ds⟩ := read
    exact always_orb_isEntry p found ds horb entry (by simpa [given, horb] using hgiven)

variable (hentries : ∀ entry ∈ entries, IsEntry entry)
include hentries

theorem isSome_lastBody?_iff : (lastBody? entries name).isSome = true ↔
    ∃ entry ∈ entries, entry.1.name = name ∧ entry.2.isSome = true := by
  simp only [lastBody?, List.find?_isSome, List.mem_reverse, List.mem_filterMap, beq_iff_eq]
  constructor
  · rintro ⟨o, ⟨entry, hentry, hbody⟩, rfl⟩
    exact ⟨entry, hentry, ((hentries entry hentry).name o hbody).symm, by simp [hbody]⟩
  · rintro ⟨entry, hentry, rfl, hbody⟩
    obtain ⟨o, ho⟩ := Option.isSome_iff_exists.mp hbody
    exact ⟨o, ⟨entry, hentry, ho⟩, (hentries entry hentry).name o ho⟩

/-- Where the last entry of a name has a body, that is the last body of the name. -/
theorem lastBody?_of_lastNamed? {entry : OrbUse × Option LocalOrb} {o : LocalOrb}
    (hlast : lastNamed? entries name = some entry) (hbody : entry.2 = some o) : lastBody? entries name = some o := by
  rw [lastBody?, ← List.filterMap_reverse]
  rw [lastNamed?] at hlast
  replace hentries : ∀ e ∈ entries.reverse, IsEntry e := fun e he => hentries e (List.mem_reverse.mp he)
  generalize entries.reverse = later at hentries hlast
  induction later with
  | nil => cases hlast
  | cons first later ih =>
    obtain ⟨hfirst, hlater⟩ := List.forall_mem_cons.mp hentries
    by_cases hname : first.1.name = name
    · obtain rfl : first = entry := by simpa [hname] using hlast
      simp [hbody, hfirst.name o hbody, hname]
    · have hrest := ih hlater (by simpa [hname] using hlast)
      cases hsecond : first.2 with
      | none => simpa [hsecond] using hrest
      | some other => simpa [hsecond, hfirst.name other hsecond, hname] using hrest

theorem lastNamed?_mem {entry : OrbUse × Option LocalOrb} (hlast : lastNamed? entries name = some entry) :
    IsEntry entry ∧ entry.1.name = name :=
  ⟨hentries entry (List.mem_reverse.mp (List.mem_of_find?_eq_some hlast)), by simpa using List.find?_some hlast⟩

variable {d : Document} (horbs : d.orbs.get? name = (lastNamed? entries name).map Prod.fst)
  (hbodies : LocalOrb.find? d.localOrbs name = lastBody? entries name)
include horbs hbodies

/-- A name that is declared as a local orb has the body of its entry. -/
theorem exists_body_of_isLocal {use : OrbUse} (huse : d.orbs.get? name = some use) (hlocal : use.url.isLocal = true) :
    ∃ o, LocalOrb.find? d.localOrbs name = some o ∧ o.range = use.valueRange := by
  obtain ⟨entry, hlast, rfl⟩ := Option.map_eq_some_iff.mp (horbs.symm.trans huse)
  obtain ⟨hentry, -⟩ := lastNamed?_mem hentries hlast
  obtain ⟨o, ho⟩ := Option.isSome_iff_exists.mp (hentry.isLocal.symm.trans hlocal)
  exact ⟨o, hbodies.trans (lastBody?_of_lastNamed? hentries hlast ho), hentry.range o ho⟩

theorem isCoherentAt_iff : d.IsCoherentAt name ↔ ¬Outlives entries name := by
  have hrange : ∀ use o, d.orbs.get? name = some use → LocalOrb.find? d.localOrbs name = some o →
      use.url.isLocal = true → o.range = use.valueRange := by
    intro use o huse ho hlocal
    obtain ⟨o', ho', hrange⟩ := exists_body_of_isLocal hentries horbs hbodies huse hlocal
    obtain rfl := Option.some.inj (ho.symm.trans ho')
    exact hrange
  rw [Document.IsCoherentAt, and_iff_left hrange, hbodies, horbs, isSome_lastBody?_iff hentries, Outlives]
  cases hlast : lastNamed? entries name with
  | none =>
    have hnone : ¬∃ entry ∈ entries, entry.1.name = name ∧ entry.2.isSome = true := by
      rintro ⟨entry, hentry, hname, -⟩
      simpa [hname] using List.find?_eq_none.mp hlast entry (List.mem_reverse.mpr hentry)
    simp [hnone]
  | some entry =>
    obtain ⟨hentry, hname⟩ := lastNamed?_mem hentries hlast
    have hmem : entry ∈ entries := List.mem_reverse.mp (List.mem_of_find?_eq_some hlast)
    simp only [Option.map_some, Option.some.injEq, exists_eq_left', hentry.isLocal]
    cases hbody : entry.2 with
    | none => simp
    | some o => simpa using ⟨entry.1, some o, hbody ▸ hmem, hname, rfl⟩

end Entries

section Documents

variable {nested : List Char → Except Endless Document} {tree : Tree} {found : NameMap OrbUse × List LocalOrb}
  {d : Document}

/-- What is kept of orbs is what is read of their section, or nothing without one. -/
def IsReadOf (nested : List Char → Except Endless Document) (tree : Tree)
    (found : NameMap OrbUse × List LocalOrb) : Prop :=
  match orbsValue? tree with
  | none => found = (∅, [])
  | some n => ∃ findings, orbs (.ofTree tree) nested n = .ok (found, findings)

theorem IsReadOf.holdsLast (h : IsReadOf nested tree found) :
    found.1.HoldsLast OrbUse.name ((orbEntries nested tree).map Prod.fst) ∧
      (LocalOrb.byName found.2).HoldsLast LocalOrb.name ((orbEntries nested tree).filterMap Prod.snd) := by
  unfold IsReadOf at h
  unfold orbEntries
  cases hvalue : orbsValue? tree with
  | none =>
    rw [hvalue] at h
    obtain rfl := h
    exact ⟨.empty, .empty⟩
  | some n =>
    rw [hvalue] at h
    obtain ⟨findings, hread⟩ := h
    obtain ⟨huses, hbodies, -⟩ := of_orbs_eq_ok hread
    exact ⟨huses, hbodies⟩

theorem IsReadOf.get?_eq (h : IsReadOf nested tree (orbsOf d)) (name : String) :
    d.orbs.get? name = (lastNamed? (orbEntries nested tree) name).map Prod.fst := by
  refine (h.holdsLast.1.get? name).trans ?_
  rw [← List.map_reverse, List.find?_map]
  rfl

theorem IsReadOf.find?_eq (h : IsReadOf nested tree (orbsOf d)) (name : String) :
    LocalOrb.find? d.localOrbs name = lastBody? (orbEntries nested tree) name := by
  rw [← LocalOrb.get?_byName]
  exact h.holdsLast.2.get? name

/-- Reading a section changes nothing about orbs, unless it is that of orbs. -/
theorem always_readSection_of_ne {v : View} {name : String} {p : Pair} (hname : name ≠ "orbs") :
    Always (fun read => orbsOf read = orbsOf d) (readSection v nested d name p) := by
  unfold readSection
  split
  case h_3 | h_4 => exact absurd rfl hname
  all_goals first
    | exact always_pure rfl
    | exact always_bind fun _ => always_pure rfl

/-- Reading the section of orbs leaves what is read there. -/
theorem always_readSection_orbs {p : Pair} (hvalue : orbsValue? tree = p.value)
    (hd : orbsOf d = (∅, []) ∨ IsReadOf nested tree (orbsOf d)) :
    Always (fun read => IsReadOf nested tree (orbsOf read)) (readSection (.ofTree tree) nested d "orbs" p) := by
  cases hp : p.value with
  | none =>
    have hread : IsReadOf nested tree (orbsOf d) := by
      refine hd.elim (fun hnone => ?_) id
      rwa [IsReadOf, hvalue, hp]
    simp only [readSection, hp]
    exact always_bind fun _ => always_pure hread
  | some n =>
    simp only [readSection, hp]
    intro read findings hread
    obtain ⟨found, before, after, horbs, hpure, -⟩ := bind_eq_ok_iff.mp hread
    obtain ⟨rfl, -⟩ := pure_eq_ok_iff.mp hpure
    rw [IsReadOf, hvalue, hp]
    exact ⟨before, horbs⟩

/-- Whatever section is read, what was read of orbs stays; after their section it is there. -/
theorem always_readSection_isReadOf {top : Node} (htop : tree.top? = some top) (name : String)
    (hd : orbsOf d = (∅, []) ∨ IsReadOf nested tree (orbsOf d)) :
    Always (fun read => IsReadOf nested tree (orbsOf read) ∨ orbsOf read = orbsOf d ∧ name ≠ "orbs")
      (match (View.ofTree tree).find? top name with
        | some p => readSection (.ofTree tree) nested d name p
        | none => pure d) := by
  have hvalue : orbsValue? tree = ((View.ofTree tree).find? top "orbs").bind (·.value) := by
    rw [orbsValue?, htop, Option.bind_some]
  by_cases hname : name = "orbs"
  · subst hname
    cases hp : (View.ofTree tree).find? top "orbs" with
    | none =>
      refine always_pure (.inl (hd.elim (fun hnone => ?_) id))
      rwa [IsReadOf, hvalue, hp]
    | some p => exact (always_readSection_orbs (by rw [hvalue, hp, Option.bind_some]) hd).mono fun _ => .inl
  · split
    · exact (always_readSection_of_ne hname).mono fun _ hread => .inr ⟨hread, hname⟩
    · exact always_pure (.inr ⟨rfl, hname⟩)

private theorem isReadOf_of_ofTreeWith {kind : DocumentKind} (hd : ofTreeWith nested kind tree = .ok d) :
    IsReadOf nested tree (orbsOf d) := by
  have hcontents : Always (fun d => IsReadOf nested tree (orbsOf d)) (contents nested kind tree) := by
    rw [contents]
    split
    · next top htop =>
      refine (always_through_marks (I := fun d => orbsOf d = (∅, []) ∨ IsReadOf nested tree (orbsOf d))
        (m := fun d name => name = "orbs" → IsReadOf nested tree (orbsOf d)) (fun d hd name _ => ?_) (.inl rfl)).bind
        fun read hread => always_pure ?_
      · refine (always_readSection_isReadOf htop name hd).mono fun read hread => ?_
        obtain hread | ⟨hsame, hname⟩ := hread
        · exact ⟨.inr hread, fun _ => hread, fun _ _ _ => hread⟩
        · exact ⟨hsame ▸ hd, fun heq => absurd heq hname, fun _ hmark => hsame ▸ hmark⟩
      · rw [orbsOf_giveContexts]
        exact hread.2 "orbs" (by decide) rfl
    · next htop =>
      refine always_pure ?_
      rw [IsReadOf, orbsValue?, htop]
      rfl
  rw [ofTreeWith] at hd
  split at hd
  · cases hd
  · next read findings hread =>
    obtain rfl := Except.ok.inj hd
    have hfound := hcontents read findings hread
    cases kind <;> exact hfound

/-- Each body is that of its name. -/
theorem IsReadOf.find?_self (h : IsReadOf nested tree (orbsOf d)) {o : LocalOrb} (ho : o ∈ d.localOrbs) :
    LocalOrb.find? d.localOrbs o.name = some o := by
  have hnames : (d.localOrbs.map LocalOrb.name).Nodup := by
    rw [← LocalOrb.keys_byName]
    exact h.holdsLast.2.keys ▸ nodup_eraseDups _
  cases hfind : LocalOrb.find? d.localOrbs o.name with
  | none => simpa using List.find?_eq_none.mp hfind o ho
  | some other =>
    have hother : other.name = o.name := by simpa using List.find?_some hfind
    rw [List.inj_on_of_nodup_map hnames (List.mem_of_find?_eq_some hfind) ho hother]

/-- Of the entries of orbs the last one of each name is kept, and the last body. So a name that is declared as a local
orb has the body of its entry, and the bodies are those of the names that are declared so, unless an entry without a
body is the last of a name that has one. -/
theorem orbs_coherent_iff {kind : DocumentKind} (hd : ofTreeWith nested kind tree = .ok d) :
    (∀ name, d.orbs.get? name = (lastNamed? (orbEntries nested tree) name).map Prod.fst ∧
      LocalOrb.find? d.localOrbs name = lastBody? (orbEntries nested tree) name) ∧
    (∀ o ∈ d.localOrbs, LocalOrb.find? d.localOrbs o.name = some o) ∧
    (∀ name use, d.orbs.get? name = some use → use.url.isLocal = true →
      ∃ o, LocalOrb.find? d.localOrbs name = some o ∧ o.range = use.valueRange) ∧
    ∀ name, d.IsCoherentAt name ↔ ¬Outlives (orbEntries nested tree) name := by
  have hread := isReadOf_of_ofTreeWith hd
  have hentries : ∀ entry ∈ orbEntries nested tree, IsEntry entry := by
    unfold orbEntries
    cases orbsValue? tree with
    | none => exact List.forall_mem_nil _
    | some n => exact isEntry_of_mem
  exact ⟨fun name => ⟨hread.get?_eq name, hread.find?_eq name⟩, fun o => hread.find?_self,
    fun name use => exists_body_of_isLocal hentries (hread.get?_eq name) (hread.find?_eq name),
    fun name => isCoherentAt_iff hentries (hread.get?_eq name) (hread.find?_eq name)⟩

end Documents

/-- An orb of the registry is declared, and then a local one of its name. -/
def laterBody : Tree :=
  Grammar.strict.tree "orbs:\n  tools: acme/tools@1.0.0\n  tools:\n    commands: {}\n".toList

/-- The local orb has its body. -/
theorem orbs_coherent_of_laterBody :
    ∃ d, Document.parseTree .strict .config laterBody = .ok d ∧
      ∃ use o, d.orbs.get? "tools" = some use ∧ use.valueRange = ⟨⟨3, 4⟩, ⟨4, 0⟩⟩ ∧
        LocalOrb.find? d.localOrbs "tools" = some o ∧ o.range = use.valueRange := by
  have hread : (Document.parseTree .strict .config laterBody).toOption.bind (fun d =>
      (d.orbs.get? "tools").map fun use => (use.url.isLocal, use.valueRange)) =
      some (true, ⟨⟨3, 4⟩, ⟨4, 0⟩⟩) := by
    decide +kernel
  obtain ⟨d, hparse, hentry⟩ := Option.bind_eq_some_iff.mp hread
  obtain ⟨use, huse, hpair⟩ := Option.map_eq_some_iff.mp hentry
  obtain ⟨hlocal, hrange⟩ := Prod.mk.inj hpair
  have hd := eq_ok_of_toOption hparse
  obtain ⟨o, ho, hplace⟩ := (orbs_coherent_iff hd).2.2.1 "tools" use huse hlocal
  exact ⟨d, hd, use, o, huse, hrange, ho, hplace⟩

/-- A text in which a local orb is declared, and then one of the registry of its name. -/
def laterVersion : List Char := "orbs:\n  tools:\n    commands: {}\n  tools: acme/tools@1.0.0\n".toList

/-- The body of the local orb stays though its name means the other one. -/
theorem body_outlives_entry : ∃ d, Document.parse .strict laterVersion = .ok d ∧
    (d.orbs.get? "tools").map (·.url.isLocal) = some false ∧
    (LocalOrb.find? d.localOrbs "tools").map (·.range) = some ⟨⟨2, 4⟩, ⟨2, 16⟩⟩ ∧ ¬d.IsCoherentAt "tools" := by
  have hread : (Document.parse .strict laterVersion).toOption.map (fun d =>
      ((d.orbs.get? "tools").map (·.url.isLocal), (LocalOrb.find? d.localOrbs "tools").map (·.range))) =
      some (some false, some ⟨⟨2, 4⟩, ⟨2, 16⟩⟩) := by
    decide +kernel
  obtain ⟨d, hparse, hpair⟩ := Option.map_eq_some_iff.mp hread
  obtain ⟨hlocal, hbody⟩ := Prod.mk.inj hpair
  refine ⟨d, eq_ok_of_toOption hparse, hlocal, hbody, fun hcoherent => ?_⟩
  obtain ⟨o, ho, -⟩ := Option.map_eq_some_iff.mp hbody
  obtain ⟨use, huse, hisLocal⟩ := hcoherent.1.mp (by simp [ho])
  simp [huse, hisLocal] at hlocal

end Read

end PipelineLint
