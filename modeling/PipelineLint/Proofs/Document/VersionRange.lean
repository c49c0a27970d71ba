import PipelineLint.Check.Orbs
import PipelineLint.Concrete.Grammar.Stream
import PipelineLint.Proofs.Diagnostic.Edits
import PipelineLint.Proofs.Document.CallSites
import PipelineLint.Proofs.Text.Lines
import PipelineLint.Proofs.Yaml.Lies
import PipelineLint.Proofs.Yaml.Quoted

/-! # Where the version of an orb is written

The version of an orb is what stands after the sign `@` in the text that its value stands for, but the range of the
version is found in the value as written: from the first sign there to the end of the value.
-/

namespace PipelineLint

open Yaml

/-- The mark around a quoted scalar. -/
def Yaml.Kind.quote? : Kind → Option Char
  | .doubleQuoteScalar => some '"'
  | .singleQuoteScalar => some '\''
  | _ => none

namespace Read

/-- What stands after the first sign `@` of a value as written, from the end of its first line on if the sign comes
later. -/
def afterSign (raw : List Char) : List Char :=
  match Text.cut? ['@'] raw with
  | none => []
  | some (before, after) => if '\n' ∈ before then raw.dropWhile (· ≠ '\n') else after

/-- A value as written has one sign `@`, on its first line, with a version after it. -/
def IsSigned (raw version : List Char) : Prop :=
  ∃ before, raw = before ++ '@' :: version ∧ '@' ∉ before ∧ '\n' ∉ before

theorem afterSign_of_isSigned {raw version : List Char} (h : IsSigned raw version) : afterSign raw = version := by
  obtain ⟨before, rfl, hsign, hbreak⟩ := h
  rw [afterSign, Text.cut?_singleton_eq_some_iff.mpr ⟨rfl, hsign⟩]
  exact if_neg hbreak

private theorem afterSign_of_notMem {raw : List Char} (h : '@' ∉ raw) : afterSign raw = [] := by
  rw [afterSign]
  split
  · rfl
  · next hcut =>
    obtain ⟨rfl, -⟩ := Text.cut?_singleton_eq_some_iff.mp hcut
    simp at h

/-- From the end of the first line on, where the line ends before the sign. -/
theorem exists_afterSign_of_break {before : List Char} (after : List Char) (hsign : '@' ∉ before)
    (hbreak : '\n' ∈ before) :
    ∃ first rest, before = first ++ '\n' :: rest ∧ '\n' ∉ first ∧
      afterSign (before ++ '@' :: after) = '\n' :: (rest ++ '@' :: after) := by
  obtain ⟨first, rest, rfl, hfirst⟩ := List.eq_append_cons_of_mem hbreak
  refine ⟨first, rest, rfl, hfirst, ?_⟩
  have hrun : ∀ c ∈ first, decide (c ≠ '\n') = true := by
    intro c hc
    rw [decide_eq_true_eq]
    rintro rfl
    exact hfirst hc
  rw [afterSign, Text.cut?_singleton_eq_some_iff.mpr ⟨rfl, hsign⟩]
  dsimp only
  rw [if_pos hbreak, List.append_assoc, Text.dropWhile_run hrun (by rintro _ ⟨⟩; rfl), List.cons_append]

/-- What the range covers is longer than what stands after a sign, unless that is the first sign, on the first line. -/
theorem isSigned_or_lt (before after : List Char) : IsSigned (before ++ '@' :: after) after ∨
    after.length < (afterSign (before ++ '@' :: after)).length := by
  have hfirst {before : List Char} (after : List Char) (hsign : '@' ∉ before) : IsSigned (before ++ '@' :: after) after ∨
      after.length < (afterSign (before ++ '@' :: after)).length := by
    by_cases hbreak : '\n' ∈ before
    · obtain ⟨_, rest, -, -, heq⟩ := exists_afterSign_of_break after hsign hbreak
      rw [heq]
      simp only [List.length_cons, List.length_append]
      omega
    · exact .inl ⟨before, rfl, hsign, hbreak⟩
  by_cases hsign : '@' ∈ before
  · obtain ⟨first, rest, rfl, hnone⟩ := List.eq_append_cons_of_mem hsign
    have hlong : after.length < (rest ++ '@' :: after).length := by
      simp only [List.length_cons, List.length_append]
      omega
    rw [List.append_assoc, List.cons_append]
    rcases hfirst (rest ++ '@' :: after) hnone with hsigned | hlt
    · rw [afterSign_of_isSigned hsigned]
      exact .inr hlong
    · exact .inr (hlong.trans hlt)
  · exact hfirst after hsign

/-- A version with nothing after it is covered just if it stands after the first sign, on the first line. -/
theorem afterSign_eq_iff {before version more : List Char} :
    afterSign (before ++ '@' :: (version ++ more)) = version ↔ IsSigned (before ++ '@' :: (version ++ more)) version := by
  refine ⟨fun heq => ?_, afterSign_of_isSigned⟩
  rcases isSigned_or_lt before (version ++ more) with hsigned | hlt
  · obtain rfl : more = [] := by simpa [heq] using afterSign_of_isSigned hsigned
    rwa [List.append_nil] at hsigned ⊢
  · rw [heq, List.length_append] at hlt
    omega

/-- A column past the end of a line is that of its end. -/
theorem offsetOf?_pastLine (before : List Char) {first : List Char} (rest : List Char) (hfirst : '\n' ∉ first)
    {column : Nat} (hcolumn : (Text.advance ⟨0, 0⟩ before).column + Text.byteLength first ≤ column) :
    Text.offsetOf? ⟨(Text.advance ⟨0, 0⟩ before).line, column⟩ (before ++ (first ++ '\n' :: rest)) =
      some (Text.byteLength (before ++ first)) := by
  obtain ⟨lines, tail, rfl, hlines, htail⟩ := Text.exists_wholeLines before
  have hline : Text.IsLine lines (tail ++ first) ('\n' :: rest) :=
    ⟨hlines, by simp [htail, hfirst], by rintro _ ⟨⟩; rfl⟩
  have hstart : Text.advance ⟨0, 0⟩ (lines ++ tail) = ⟨lines.count '\n', Text.byteLength tail⟩ := by
    rw [Text.advance_append, hlines.advance_eq, Text.advance_of_notMem htail, Nat.zero_add]
  have hoffset := hline.offsetOf?_eq column
  rw [hstart, ← Text.byteLength_append] at hcolumn
  rw [min_eq_right hcolumn, ← Text.byteLength_append] at hoffset
  rw [hstart]
  simpa only [List.append_assoc] using hoffset

/-- From behind the sign of a value on, a range covers what stands after the sign, or after the first line if that ends
before the sign. -/
private theorem textIn?_behindSign (before version after : List Char) {name : List Char} (hsign : '@' ∉ name) :
    Range.textIn? ⟨⟨(Text.advance ⟨0, 0⟩ before).line, (Text.advance ⟨0, 0⟩ before).column + Text.byteLength name + 1⟩,
        Text.advance ⟨0, 0⟩ (before ++ (name ++ '@' :: version))⟩ (before ++ (name ++ '@' :: version ++ after)) =
      some (afterSign (name ++ '@' :: version)) := by
  by_cases hbreak : '\n' ∈ name
  · obtain ⟨first, rest, rfl, hfirst, hafter⟩ := exists_afterSign_of_break version hsign hbreak
    have hlong : Text.byteLength first ≤ Text.byteLength (first ++ '\n' :: rest) := by
      rw [Text.byteLength_append]
      exact Nat.le_add_right _ _
    have hpast := offsetOf?_pastLine before (rest ++ '@' :: version ++ after) hfirst
      (Nat.le_succ_of_le (Nat.add_le_add_left hlong _))
    have hcovered : Range.textIn? ⟨_, _⟩ (before ++ first ++ ('\n' :: (rest ++ '@' :: version) ++ after)) = some _ :=
      Range.textIn?_append (by simpa using hpast)
    rw [hafter]
    simpa using hcovered
  · have hsigned : IsSigned (name ++ '@' :: version) version := ⟨name, rfl, hsign, hbreak⟩
    have hplace : (⟨(Text.advance ⟨0, 0⟩ before).line,
        (Text.advance ⟨0, 0⟩ before).column + Text.byteLength name + 1⟩ : Position) =
        Text.advance ⟨0, 0⟩ (before ++ (name ++ ['@'])) := by
      have hunbroken : '\n' ∉ name ++ ['@'] := by simp [hbreak]
      rw [Text.advance_append, Text.advance_of_notMem hunbroken, Text.byteLength_append, ← Nat.add_assoc]
      rfl
    have hoffset := Text.offsetOf?_advance (before ++ (name ++ ['@'])) (version ++ after)
    have hcovered := Range.textIn?_append hoffset
    rw [afterSign_of_isSigned hsigned, hplace]
    simpa using hcovered

/-- The range of a version in the text. -/
private theorem textIn?_orbVersionRange {v : View} {value : Node} (hvalue : value.Lies v.tree.source) :
    (orbVersionRange v value).textIn? v.tree.source = some (afterSign (v.rawText value)) := by
  obtain ⟨before, after, hsource, hstart, hstop⟩ := hvalue.exists_append
  have hraw : Text.slice v.tree.source value.start.offset value.stop.offset = v.rawText value := rfl
  rw [hraw] at hsource hstop
  rw [orbVersionRange]
  generalize v.rawText value = raw at hsource hstop
  generalize v.tree.source = source at hsource
  have hstop : value.stop.position = Text.advance ⟨0, 0⟩ (before ++ raw) := by
    rw [hstop, Mark.position_after]
    rfl
  have hstart : value.start.position = Text.advance ⟨0, 0⟩ before := by
    rw [hstart, Mark.position_after]
    rfl
  have hrow : value.start.row = (Text.advance ⟨0, 0⟩ before).line := congrArg Position.line hstart
  have hcolumn : value.start.column = (Text.advance ⟨0, 0⟩ before).column := congrArg Position.column hstart
  subst hsource
  cases hcut : Text.cut? ['@'] raw with
  | none =>
    rw [afterSign, hcut]
    have hnowhere : Range.textIn? {} ([] ++ ([] ++ (before ++ (raw ++ after)))) = some [] :=
      Range.textIn?_append (Text.offsetOf?_advance [] _)
    exact hnowhere
  | some found =>
    obtain ⟨name, version⟩ := found
    obtain ⟨rfl, hsign⟩ := Text.cut?_singleton_eq_some_iff.mp hcut
    dsimp only
    rw [hstop, hrow, hcolumn]
    exact textIn?_behindSign before version after hsign

/-- The content of a value stands at the end of it, perhaps behind an anchor or a tag. -/
structure EndsWith (value content : Node) : Prop where
  inner : View.inner? value = some content
  start : value.start.offset ≤ content.start.offset
  stop : content.stop = value.stop

section Content

variable {v : View} {value content : Node}

/-- What stands at the end of a value is written at the end of it. -/
theorem EndsWith.exists_append (h : EndsWith value content) (hvalue : value.Lies v.tree.source)
    (hcontent : content.Lies v.tree.source) : ∃ beside, v.rawText value = beside ++ v.rawText content := by
  obtain ⟨before, after, hsource, hfirst, hlast⟩ := hvalue.exists_append
  obtain ⟨before', after', hsource', hfirst', hlast'⟩ := hcontent.exists_append
  have hstart := h.start
  change ∃ beside, Text.slice _ value.start.offset value.stop.offset =
    beside ++ Text.slice _ content.start.offset content.stop.offset
  generalize Text.slice v.tree.source value.start.offset value.stop.offset = raw at hsource hlast ⊢
  generalize Text.slice v.tree.source content.start.offset content.stop.offset = raw' at hsource' hlast' ⊢
  have hlength : Text.byteLength (before' ++ raw') = Text.byteLength (before ++ raw) := by
    have hoffset := congrArg Mark.offset (hlast'.symm.trans (h.stop.trans hlast))
    rw [Mark.offset_after, Mark.offset_after] at hoffset
    exact Nat.add_left_cancel hoffset
  have hsame : before' ++ raw' ++ after' = before ++ raw ++ after := by
    rw [List.append_assoc, List.append_assoc, ← hsource, ← hsource']
  obtain ⟨hwhole, -⟩ := Text.append_inj_of_byteLength hsame hlength
  rw [hfirst, hfirst', Mark.offset_after, Mark.offset_after] at hstart
  rcases List.append_eq_append_iff.mp hwhole with ⟨more, rfl, rfl⟩ | ⟨beside, rfl, rfl⟩
  · rw [Text.byteLength_append] at hstart
    cases more with
    | nil => exact ⟨[], rfl⟩
    | cons c more =>
      have hpos := c.utf8Size_pos
      rw [Text.byteLength_cons] at hstart
      omega
  · exact ⟨beside, rfl⟩

theorem content?_of_inner? (hkind : value.kind = .flowNode) (hinner : View.inner? value = some content)
    (hscalar : content.kind.isScalar) : v.content? value = some content := by
  have hself : v.contentWithin maxAliasSteps content = some content := by
    rw [maxAliasSteps, View.contentWithin]
    split
    all_goals first | rfl | simp_all [Kind.isScalar]
  rw [View.content?, View.contentWithin, hkind]
  dsimp only
  rw [hinner, Option.bind_some, hself]

/-- Of a value that is written plain the range covers the version just if the value has one sign, on its first line, and
no white space after it. -/
theorem afterSign_plain_iff {beside : List Char} (hraw : v.rawText value = beside ++ v.rawText content)
    (hkind : value.kind = .flowNode) (hinner : View.inner? value = some content) (hplain : content.kind = .plainScalar)
    {name version : List Char} (hcharacters : v.characters value = name ++ '@' :: version) :
    afterSign (v.rawText value) = version ↔ IsSigned (v.rawText value) version := by
  have hcontent := content?_of_inner? (v := v) hkind hinner (by rw [hplain]; rfl)
  rw [View.characters, hcontent] at hcharacters
  simp only [hplain] at hcharacters
  obtain ⟨before, after, -, -, htrim⟩ := Text.exists_append_trim (v.rawText content)
  rw [hcharacters] at htrim
  have hwritten : v.rawText value = (beside ++ before ++ name) ++ '@' :: (version ++ after) := by
    rw [hraw, htrim]
    simp only [List.append_assoc, List.cons_append]
  rw [hwritten]
  exact afterSign_eq_iff

/-- A sign in the text that a quoted value stands for is written between its quotation marks. -/
theorem signed_unquote {quote : Char} {name version : List Char} (hkind : value.kind = .flowNode)
    (hinner : View.inner? value = some content) (hquote : content.kind.quote? = some quote)
    (hcharacters : v.characters value = name ++ '@' :: version) :
    Text.isBlank quote = false ∧ ScalarText.Signed (ScalarText.unquote quote (v.rawText content)) version := by
  have hscalar : content.kind.isScalar = true := by
    cases hkind : content.kind <;> simp_all [Kind.quote?, Kind.isScalar]
  have hcontent := content?_of_inner? (v := v) hkind hinner hscalar
  rw [View.characters, hcontent] at hcharacters
  dsimp only at hcharacters
  rw [Kind.quote?.eq_def] at hquote
  split at hquote
  · next hdouble =>
    obtain rfl := Option.some.inj hquote
    rw [hdouble] at hcharacters
    exact ⟨by decide, ScalarText.signed_of_unescape hcharacters⟩
  · next hsingle =>
    obtain rfl := Option.some.inj hquote
    rw [hsingle] at hcharacters
    exact ⟨by decide, ScalarText.signed_of_undouble hcharacters⟩
  · cases hquote

/-- The range never covers the version of a quoted value, because it covers the quotation mark as well. -/
theorem afterSign_quoted_ne {beside : List Char} (hraw : v.rawText value = beside ++ v.rawText content)
    (hkind : value.kind = .flowNode) (hinner : View.inner? value = some content) {quote : Char}
    (hquote : content.kind.quote? = some quote) (hlast : (v.rawText content).getLast? = some quote)
    {name version : List Char} (hcharacters : v.characters value = name ++ '@' :: version) :
    afterSign (v.rawText value) ≠ version := by
  obtain ⟨hblank, hsigned⟩ := signed_unquote hkind hinner hquote hcharacters
  obtain ⟨before, hquoted⟩ := ScalarText.exists_append_unquote hblank hlast
  obtain ⟨first, rest, hunquote, hle⟩ := hsigned
  have hwritten : v.rawText value = (beside ++ before ++ first) ++ '@' :: (rest ++ [quote]) := by
    rw [hraw, hquoted, hunquote]
    simp only [List.append_assoc, List.cons_append]
  rw [hwritten]
  intro heq
  have hcovered : version.length < (afterSign ((beside ++ before ++ first) ++ '@' :: (rest ++ [quote]))).length := by
    have hlong : version.length < (rest ++ [quote]).length := by
      rw [List.length_append, List.length_singleton]
      omega
    rcases isSigned_or_lt (beside ++ before ++ first) (rest ++ [quote]) with hsigned | hlt
    · rwa [afterSign_of_isSigned hsigned]
    · exact hlong.trans hlt
  rw [heq] at hcovered
  exact Nat.lt_irrefl _ hcovered

end Content

/-- A value in flow position declares an orb that is not local. -/
structure DeclaredBy (v : View) (value : Node) (use : OrbUse) : Prop where
  mem : value ∈ v.tree.root.preorder
  kind : value.kind = .flowNode
  valueRange : use.valueRange = value.range
  url : use.url = .parse (v.text value)
  versionRange : use.versionRange = orbVersionRange v value

def Declared (v : View) (use : OrbUse) : Prop := use.url.isLocal = false → ∃ value, DeclaredBy v value use

section Orbs

open View Reads

variable {t : Tree} {nested : List Char → Except Endless Document} {n : Node} {p : Pair}

private theorem always_declared_orb (hn : n ∈ t.root.preorder) (hp : p ∈ (View.ofTree t).pairs n) :
    Always (fun found => ∀ use inner, found = some (use, inner) → Declared (.ofTree t) use)
      (orb (.ofTree t) nested p) := by
  unfold orb
  cases hkey : p.key with
  | none => exact always_pure nofun
  | some key =>
    cases hvalue : p.rawValue with
    | none => exact always_pure nofun
    | some value =>
      have hmem := mem_preorder_of_reaches hn ((below_of_mem_pairs hp).rawValue hvalue).to_reflTransGen
      dsimp only
      split
      · next hkind =>
        refine always_pure ?_
        rintro _ _ ⟨⟩ -
        exact ⟨value, hmem, hkind, rfl, rfl, rfl⟩
      · split
        · exact always_pure nofun
        · split
          · exact always_endless
          · refine always_bind fun _ => always_pure ?_
            rintro _ _ ⟨⟩ ⟨⟩
      · exact always_pure nofun

private theorem always_declared_orbs (hn : n ∈ t.root.preorder) :
    Always (fun found => ∀ use ∈ found.1.values, Declared (.ofTree t) use) (orbs (.ofTree t) nested n) := by
  refine always_through (fun found p hp hfound => (always_declared_orb hn hp).bind fun read hread => ?_) nofun
  have hinsert {use : OrbUse} (huse : Declared (.ofTree t) use) :
      ∀ other ∈ (found.1.insert use.name use).values, Declared (.ofTree t) other :=
    fun other hother => (NameMap.mem_values_insert hother).elim (fun heq => heq ▸ huse) (hfound other)
  rcases read with _ | ⟨use, _ | inner⟩
  · exact always_pure hfound
  · exact always_pure (hinsert (hread _ _ rfl))
  · exact always_pure (hinsert (hread _ _ rfl))

/-- Each orb of a document that is not local is declared by a value of its tree. -/
theorem exists_declaredBy {kind : DocumentKind} {d : Document} {use : OrbUse} (hd : ofTreeWith nested kind t = .ok d)
    (huse : use ∈ d.orbs.values) (hremote : use.url.isLocal = false) : ∃ value, DeclaredBy (.ofTree t) value use :=
  orbsOf_of_ofTreeWith (I := fun found => ∀ use ∈ found.1.values, Declared (.ofTree t) use) nofun
    (fun _ hn => always_declared_orbs hn) hd use huse hremote

end Orbs

section Updates

open Check

variable {source : List Char} {use : OrbUse}

/-- The text in the range of the version is the version. -/
def Covers (source : List Char) (use : OrbUse) : Prop :=
  use.versionRange.textIn? source = some use.url.version.toList

private theorem version_parse {cs name version : List Char} (h : Text.cut? ['@'] cs = some (name, version)) :
    (OrbUrl.parse (String.ofList cs)).version.toList = version := by
  unfold OrbUrl.parse
  split
  · next heq =>
    rw [String.toList_ofList, h] at heq
    obtain ⟨-, rfl⟩ := Prod.mk.inj (Option.some.inj heq)
    exact String.toList_ofList
  · next heq =>
    rw [String.toList_ofList, h] at heq
    cases heq

/-- What offers of newer versions replace is in the range of the version. -/
theorem range_of_mem_offerVersions {current : String} {offers : List (String × String)} {d : Diagnostic}
    (hd : ∀ action ∈ d.actions, ∀ edit ∈ action.edits, edit.range = use.versionRange) :
    ∀ action ∈ (offerVersions use current offers d).actions, ∀ edit ∈ action.edits, edit.range = use.versionRange := by
  rw [offerVersions]
  refine List.foldlRecOn (motive := fun found : Diagnostic × List String =>
    ∀ action ∈ found.1.actions, ∀ edit ∈ action.edits, edit.range = use.versionRange) _ _ hd fun found hfound offer _ => ?_
  dsimp only
  split
  · intro action haction
    rcases List.mem_append.mp haction with haction | haction
    · exact hfound action haction
    · obtain rfl := List.mem_singleton.mp haction
      exact List.forall_mem_singleton.mpr rfl
  · exact hfound

/-- What the quick fixes of an orb that is behind replace is in the range of its version. -/
theorem range_of_mem_orbUpdate {current : String} {newest : NewestVersions} {d : Diagnostic}
    (hd : d ∈ orbUpdate use current newest) :
    ∀ action ∈ d.actions, ∀ edit ∈ action.edits, edit.range = use.versionRange := by
  unfold orbUpdate at hd
  split at hd
  · cases hd
  · obtain rfl := List.mem_singleton.mp hd
    exact range_of_mem_offerVersions nofun

/-- How the range of the version of an orb stands to the value that declares it. -/
structure Placed (v : View) (value : Node) (use : OrbUse) : Prop where
  /-- The range covers what stands after the first sign of the value as written. -/
  covered : use.versionRange.textIn? v.tree.source = some (afterSign (v.rawText value))
  /-- Written plain, perhaps with an anchor or a tag, the version is covered just if the value has one sign `@`, on its
  first line, with the version and nothing else after it. -/
  plain : '@' ∈ v.characters value → ∀ content, EndsWith value content → content.kind = .plainScalar →
    (Covers v.tree.source use ↔ IsSigned (v.rawText value) use.url.version.toList)
  /-- Written in quotes, which are closed, the version is not covered. -/
  quoted : '@' ∈ v.characters value → ∀ content quote, EndsWith value content → content.kind.quote? = some quote →
    (v.rawText content).getLast? = some quote → ¬ Covers v.tree.source use
  /-- Where the value as written has no sign, as an alias, no version is covered but the empty one. -/
  unsigned : '@' ∉ v.rawText value → (Covers v.tree.source use ↔ use.url.version = "")
  /-- Where the version is covered, the updates replace the version and nothing else. -/
  updates : Covers v.tree.source use → ∃ before after, v.tree.source = before ++ (use.url.version.toList ++ after) ∧
    ∀ current newest, ∀ d ∈ orbUpdate use current newest, ∀ action ∈ d.actions, ∀ edit ∈ action.edits,
      edit.textWith? v.tree.source = some (before ++ edit.newText.toList ++ after)

/-- For every orb that is not local, of every document that is read from a tree whose nodes lie in its text: it is
declared by a value in flow position, its version is what stands after the sign `@` in the text that the value stands
for, and the range of the version covers what stands after the first sign of the value as written. So a version that is
written plain need not be covered, a quoted one never is, because the range takes in its quotation mark, and the range
of an alias is empty; but where the version is covered, the updates replace it and nothing else. -/
theorem versionRange_exact {t : Tree} {nested : List Char → Except Endless Document} {kind : DocumentKind}
    {d : Document} {use : OrbUse} (ht : t.LiesInText) (hd : ofTreeWith nested kind t = .ok d) (huse : use ∈ d.orbs.values)
    (hremote : use.url.isLocal = false) : ∃ value, DeclaredBy (.ofTree t) value use ∧ Placed (.ofTree t) value use := by
  obtain ⟨value, h⟩ := exists_declaredBy hd huse hremote
  have hlies : value.Lies t.source := ht value h.mem
  have hcovered : use.versionRange.textIn? t.source = some (afterSign ((View.ofTree t).rawText value)) := by
    rw [h.versionRange]
    exact textIn?_orbVersionRange (v := .ofTree t) hlies
  have hcovers : Covers t.source use ↔ afterSign ((View.ofTree t).rawText value) = use.url.version.toList := by
    rw [Covers, hcovered, Option.some_inj]
  have hversion (hsign : '@' ∈ (View.ofTree t).characters value) :
      ∃ name, (View.ofTree t).characters value = name ++ '@' :: use.url.version.toList := by
    obtain ⟨name, version, hcharacters, hnone⟩ := List.eq_append_cons_of_mem hsign
    have hcut := Text.cut?_singleton_eq_some_iff.mpr ⟨hcharacters, hnone⟩
    rw [h.url, View.text, version_parse hcut]
    exact ⟨name, hcharacters⟩
  have hends {content : Node} (hcontent : EndsWith value content) :
      ∃ beside, (View.ofTree t).rawText value = beside ++ (View.ofTree t).rawText content := by
    have hchild : content ∈ value.children := List.mem_of_mem_filter (List.mem_of_find?_eq_some hcontent.inner)
    exact hcontent.exists_append (v := .ofTree t) hlies (ht content (Node.child_mem_preorder hchild _ h.mem))
  refine ⟨value, h, hcovered, fun hsign content hcontent hplain => ?_, fun hsign content quote hcontent hquote hlast => ?_,
    fun hunsigned => ?_, fun hcover => ?_⟩
  · obtain ⟨name, hcharacters⟩ := hversion hsign
    obtain ⟨beside, hraw⟩ := hends hcontent
    exact hcovers.trans (afterSign_plain_iff hraw h.kind hcontent.inner hplain hcharacters)
  · obtain ⟨name, hcharacters⟩ := hversion hsign
    obtain ⟨beside, hraw⟩ := hends hcontent
    exact hcovers.not.mpr (afterSign_quoted_ne hraw h.kind hcontent.inner hquote hlast hcharacters)
  · refine hcovers.trans ?_
    rw [afterSign_of_notMem hunsigned, eq_comm, String.toList_eq_nil_iff]
  · obtain ⟨before, after, hsource, hwith⟩ := Range.exists_textWith?_of_textIn? hcover
    refine ⟨before, after, hsource, fun current newest d hd action haction edit hedit => ?_⟩
    have hrange := range_of_mem_orbUpdate hd action haction edit hedit
    obtain ⟨range, newText⟩ := edit
    obtain rfl : range = use.versionRange := hrange
    exact hwith newText

def plainOrb : Tree := Grammar.strict.tree "orbs:\n  node: acme/node@1.0.0\n".toList

theorem versionRange_exact_of_plain : ∃ d use value, Document.parseTree .strict .config plainOrb = .ok d ∧
    use ∈ d.orbs.values ∧ use.url.isLocal = false ∧ plainOrb.LiesInText ∧ DeclaredBy (.ofTree plainOrb) value use ∧
    Placed (.ofTree plainOrb) value use := by
  have hsome : (((Document.parseTree .strict .config plainOrb).toOption.bind (·.orbs.values.head?)).filter
      (!·.url.isLocal)).isSome := by decide +kernel
  obtain ⟨use, huse⟩ := Option.isSome_iff_exists.mp hsome
  obtain ⟨huse, hlocal⟩ := Option.filter_eq_some_iff.mp huse
  obtain ⟨d, hd, hmem⟩ := Option.bind_eq_some_iff.mp huse
  have hremote : use.url.isLocal = false := by simpa using hlocal
  have hd := eq_ok_of_toOption hd
  have ht : plainOrb.LiesInText := by decide +kernel
  obtain ⟨value, hvalue, hplaced⟩ := versionRange_exact ht hd (List.mem_of_head? hmem) hremote
  exact ⟨d, use, value, hd, List.mem_of_head? hmem, hremote, ht, hvalue, hplaced⟩

/-- A text with orbs that are written in quotes, with an anchor and as its alias. -/
def styledOrbs : List Char :=
  "orbs:\n  node: \"acme/node@1.0.0\"\n  ruby: &r acme/ruby@1.0.0\n  rails: *r\n".toList

/-- The range of a quoted version takes in the quotation mark, which an update then takes away; an alias has no range.
-/
theorem quoted_version_not_covered :
    ((Document.parse .strict styledOrbs).toOption.map fun d => d.orbs.values.map fun use =>
      (use.url.version, (use.versionRange.textIn? styledOrbs).map String.ofList)) =
      some [("1.0.0", some "1.0.0\""), ("1.0.0", some "1.0.0"), ("1.0.0", some "")] ∧
    (((Document.parse .strict styledOrbs).toOption.bind fun d => d.orbs.values.head?).bind fun use =>
      ((Edit.mk use.versionRange "1.0.1").textWith? styledOrbs).map String.ofList) =
      some "orbs:\n  node: \"acme/node@1.0.1\n  ruby: &r acme/ruby@1.0.0\n  rails: *r\n" := by
  decide +kernel

end Updates

end Read

end PipelineLint
