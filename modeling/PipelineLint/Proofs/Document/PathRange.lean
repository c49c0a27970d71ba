import PipelineLint.Check.Shape
import PipelineLint.Concrete.Host
import PipelineLint.Proofs.Data.Ways
import PipelineLint.Proofs.Document.Fits
import PipelineLint.Proofs.Load.Expansion
import PipelineLint.Proofs.Schema.Exempt

/-! # Where paths lead

A path of names and numbers of items is followed in the tree of a document, with merges expanded. Decoding takes the
value at a way into the data from a pair or an item of the same tree. Where all merges are plain these are the same:
`Document.pathRange_exact`. Where a merged mapping has a merge of its own, the data has a name that no path follows.
-/

namespace PipelineLint

open Yaml

namespace Yaml.View

open Data

/-- Where one part of a path leads from a node at a place, if there is a node: the place, and the node there. `pick`
says which pair of a mapping a name means. -/
def step? (v : View) (pick : Node → String → Option Pair) (place : Range × Option Node) (part : String) :
    Option (Range × Option Node) :=
  place.2.bind fun n =>
    if (v.mapping? n).isSome then (pick n part).map fun p => (p.keyRange, p.value)
    else (numbered? (v.items n) part).map fun i => (i.range, i.value)

def walk? (v : View) (pick : Node → String → Option Pair) (place : Range × Option Node) (path : List String) :
    Option (Range × Option Node) :=
  path.foldlM (v.step? pick) place

variable {v : View} {pick : Node → String → Option Pair} {n m : Node} {place target : Range × Option Node}
  {name part : String} {path rest : List String}

theorem step?_of_mapping? {range : Range} (hm : v.mapping? n = some m) :
    v.step? pick (range, some n) name = (pick n name).map fun p => (p.keyRange, p.value) := by
  rw [step?, Option.bind_some, hm]
  rfl

theorem step?_of_mapping?_eq_none {range : Range} (hn : v.mapping? n = none) :
    v.step? pick (range, some n) part = (numbered? (v.items n) part).map fun i => (i.range, i.value) := by
  rw [step?, Option.bind_some, hn]
  rfl

theorem walk?_nil : v.walk? pick place [] = some place := rfl

theorem walk?_cons :
    v.walk? pick place (part :: path) = (v.step? pick place part).bind fun next => v.walk? pick next path :=
  List.foldlM_cons

theorem walk?_append :
    v.walk? pick place (path ++ rest) = (v.walk? pick place path).bind fun next => v.walk? pick next rest :=
  List.foldlM_append

/-- What holds a mapping holds no sequence. -/
theorem sequence?_of_mapping? (hm : v.mapping? n = some m) : v.sequence? n = none := by
  obtain ⟨hcontent, hmapping⟩ := Option.filter_eq_some_iff.mp hm
  rw [sequence?, hcontent, Option.filter_eq_none_iff]
  rintro _ ⟨⟩ hsequence
  cases hkind : m.kind <;> simp [hkind, Kind.isMapping, Kind.isSequence] at hmapping hsequence

/-- Steps lead down, if the pairs that names mean are below. -/
theorem reaches_of_step? (hpick : ∀ {n name p}, pick n name = some p → v.PairBelow n p)
    (h : v.step? pick place part = some target) (hm : target.2 = some m) : ∃ n, place.2 = some n ∧ v.Reaches n m := by
  obtain ⟨n, hn, h⟩ := Option.bind_eq_some_iff.mp h
  refine ⟨n, hn, ?_⟩
  split at h
  · obtain ⟨p, hp, rfl⟩ := Option.map_eq_some_iff.mp h
    exact ((hpick hp).value hm).to_reflTransGen
  · obtain ⟨i, hi, rfl⟩ := Option.map_eq_some_iff.mp h
    obtain ⟨index, -, hget⟩ := numbered?_eq_some_iff.mp hi
    exact ((below_of_mem_items (List.mem_of_getElem? hget)).value hm).to_reflTransGen

/-- A path leads to the same with pairs that are the same at all nodes that it leads through. -/
theorem walk?_congr {pick' : Node → String → Option Pair}
    (h : ∀ before part after target n, path = before ++ part :: after → v.walk? pick place before = some target →
      target.2 = some n → pick n part = pick' n part) :
    v.walk? pick place path = v.walk? pick' place path := by
  induction path generalizing place with
  | nil => rfl
  | cons part path ih =>
    have hstep : v.step? pick place part = v.step? pick' place part := by
      rw [step?, step?]
      cases hn : place.2 with
      | none => rfl
      | some n => rw [Option.bind_some, Option.bind_some, h [] part path place n rfl walk?_nil hn]
    rw [walk?_cons, walk?_cons, ← hstep]
    refine Option.bind_congr fun next hnext => ih fun before part' after target n hpath htarget hn => ?_
    refine h (part :: before) part' after target n (congrArg (part :: ·) hpath) ?_ hn
    rw [walk?_cons, hnext]
    exact htarget

private theorem reaches_of_walk? (hpick : ∀ {n name p}, pick n name = some p → v.PairBelow n p)
    (h : v.walk? pick place path = some target) (hm : target.2 = some m) : ∃ n, place.2 = some n ∧ v.Reaches n m := by
  induction path generalizing place with
  | nil =>
    obtain rfl := Option.some.inj h
    exact ⟨m, hm, .refl⟩
  | cons part path ih =>
    rw [walk?_cons] at h
    obtain ⟨next, hnext, h⟩ := Option.bind_eq_some_iff.mp h
    obtain ⟨middle, hmiddle, hbelow⟩ := ih h
    obtain ⟨n, hn, habove⟩ := reaches_of_step? hpick hnext hmiddle
    exact ⟨n, hn, habove.trans hbelow⟩

/-- Where all merges are plain on the way, a path leads to what is decoded. -/
theorem walk?_find?_eq {top : Node} (hplace : place.2 = some top)
    (hid : ∀ a b, v.Reaches top a → v.Reaches top b → a.id = b.id → a = b)
    (hplain : ∀ before target n, before <+: path → before ≠ path → v.walk? v.taken? place before = some target →
      target.2 = some n → v.MergesPlain n) :
    v.walk? v.find? place path = v.walk? v.taken? place path := by
  refine (walk?_congr fun before part after target n hpath htarget hn => ?_).symm
  obtain ⟨start, hstart, hreach⟩ := reaches_of_walk? below_of_taken? htarget hn
  obtain rfl := Option.some.inj (hplace.symm.trans hstart)
  have hbefore : before ≠ path := fun heq => by simp [heq] at hpath
  have hmerges := hplain before target n ⟨part :: after, hpath.symm⟩ hbefore htarget hn
  exact taken?_of_mergesPlain hmerges (fun a b ha hb => hid a b (hreach.trans ha) (hreach.trans hb)) part

/-- The pairs that are found with merges expanded are below. -/
theorem below_of_find? {p : Pair} (h : v.find? n name = some p) : v.PairBelow n p :=
  below_of_mem_pairs (List.mem_of_find?_eq_some h)

private theorem length_le_sizeAll (ns : List Node) : ns.length ≤ Node.sizeAll ns := by
  induction ns with
  | nil => exact Nat.le_refl _
  | cons n ns ih =>
    have hpos : 0 < n.size := by
      rw [← Node.length_preorder]
      exact List.length_pos_of_mem n.self_mem_preorder
    rw [Node.sizeAll_cons, List.length_cons]
    omega

/-- A sequence has no more items than the tree has nodes. -/
theorem length_items_le {t : Tree} (hn : n ∈ t.root.preorder) : ((ofTree t).items n).length ≤ t.root.size := by
  rw [items]
  split
  · next sequence hsequence =>
    have hmem := mem_preorder_of_reaches hn (reaches_sequence? hsequence)
    have hsize := (Node.preorder_sublist _ hmem).length_le
    rw [Node.preorder_eq sequence, List.length_cons, Node.length_preorderAll, Node.length_preorder] at hsize
    have hitems := List.length_filterMap_le (ofTree t).item? sequence.children
    have hchildren := length_le_sizeAll sequence.children
    omega
  · exact Nat.zero_le _

end Yaml.View

namespace Load

open Data Yaml.View

variable {v : View} {isRead : Node → Value → Bool} {n? : Option Node} {n : Node} {name : String}
  {way : List String} {data part : Data} {entries : List (String × Data)} {parts : List Data}

theorem ComesFrom.exists_mapping? (h : ComesFrom v isRead n? (.map entries)) :
    ∃ n m, n? = some n ∧ v.mapping? n = some m := by
  obtain ⟨value, hstands, -, hdecodes⟩ := h
  rcases hdecodes.exists_map with ⟨written, rfl⟩ | ⟨tag, inner, rfl⟩
  · cases n? with
    | none => cases hstands
    | some n =>
      obtain ⟨m, hm, -⟩ := Value.mapping?_of_expands_map hstands
      exact ⟨n, m, rfl, hm⟩
  · cases n? with
    | none => cases hstands
    | some n => simp [Value.StandsFor, Value.expands] at hstands

/-- A name of a decoded mapping leads to the pair that its data is decoded from. -/
theorem ComesFrom.exists_step?_entry (h : ComesFrom v isRead n? (.map entries))
    (hnodup : (entries.map Prod.fst).Nodup) (hmem : (name, part) ∈ entries) (range : Range) :
    ∃ next, v.step? v.taken? (range, n?) name = some next ∧ ComesFrom v isRead next.2 part := by
  obtain ⟨n, m, rfl, hm⟩ := h.exists_mapping?
  obtain ⟨written, merged, data, hdistinct, hnamed, hpairs, hmerged, hdata, hrel⟩ := h.mapping hm
  obtain rfl := Data.map.inj hdata
  have hname := hrel name
  rw [lookup?_of_mem hnodup hmem] at hname
  obtain ⟨value, hvalue, hdecodes⟩ := exists_of_rel_some_right hname
  have htaken := Value.rel_ofName?_taken? hpairs hnamed hmerged hm name
  rw [hvalue] at htaken
  obtain ⟨p, hp, hstands⟩ := exists_of_rel_some_left htaken
  refine ⟨(p.keyRange, p.value), ?_, value, hstands, Value.distinct_of_mergeEntries hdistinct hmerged hvalue, hdecodes⟩
  rw [step?_of_mapping? hm, hp, Option.map_some]

/-- The number of a part of a decoded list leads to the item that the part is decoded from. -/
theorem ComesFrom.exists_step?_item {index : Nat} (h : ComesFrom v isRead n? (.list parts))
    (hget : parts[index]? = some part) (range : Range) :
    ∃ next, v.step? v.taken? (range, n?) (toString index) = some next ∧ ComesFrom v isRead next.2 part := by
  obtain ⟨n, rfl, hmapping, hitems⟩ := h.exists_items
  have hpart := hitems index
  rw [hget] at hpart
  obtain ⟨i, hi, hcomes⟩ := exists_of_rel_some_right hpart
  refine ⟨(i.range, i.value), ?_, hcomes⟩
  rw [step?_of_mapping?_eq_none hmapping, numbered?_eq_some_iff.mpr ⟨index, rfl, hi⟩, Option.map_some]

/-- A way into decoded data leads to what its part is decoded from. -/
theorem ComesFrom.exists_walk? (h : ComesFrom v isRead n? data) (hdistinct : HasDistinctNames data)
    (hleads : Leads data way part) (range : Range) :
    ∃ target, v.walk? v.taken? (range, n?) way = some target ∧ ComesFrom v isRead target.2 part := by
  induction hleads generalizing range n? with
  | here => exact ⟨(range, n?), walk?_nil, h⟩
  | entry hmem _ ih =>
    obtain ⟨next, hnext, hbelow⟩ := h.exists_step?_entry (hdistinct [] _ (.here _)) hmem range
    obtain ⟨target, htarget, hpart⟩ := ih hbelow (hdistinct.entry hmem) next.1
    refine ⟨target, ?_, hpart⟩
    rwa [walk?_cons, hnext]
  | item hget _ ih =>
    obtain ⟨next, hnext, hbelow⟩ := h.exists_step?_item hget range
    obtain ⟨target, htarget, hpart⟩ := ih hbelow (hdistinct.item hget) next.1
    refine ⟨target, ?_, hpart⟩
    rwa [walk?_cons, hnext]

/-- Where merges are not plain, the data has a merge key as a name. -/
theorem ComesFrom.mergeKey_mem (h : ComesFrom v isRead (some n) data) (hnested : ¬v.MergesPlain n) :
    ∃ entries below, data = .map entries ∧ (mergeKey, below) ∈ entries := by
  obtain ⟨p, hp⟩ := Option.ne_none_iff_exists'.mp (mt taken?_mergeKey_eq_none_iff.mp hnested)
  obtain ⟨m, hm, -⟩ := Option.bind_eq_some_iff.mp hp
  obtain ⟨_, merged, entries, -, hnamed, hpairs, hmerged, rfl, hrel⟩ := h.mapping hm
  have htaken := Value.rel_ofName?_taken? hpairs hnamed hmerged hm mergeKey
  rw [hp] at htaken
  obtain ⟨value, hvalue, -⟩ := exists_of_rel_some_right htaken
  have hname := hrel mergeKey
  rw [hvalue] at hname
  obtain ⟨below, hbelow, -⟩ := exists_of_rel_some_left hname
  exact ⟨entries, below, rfl, mem_of_lookup? hbelow⟩

end Load

namespace Document

open Data Yaml.View

variable {nested : List Char → Except Endless Document} {kind : DocumentKind} {t : Tree} {d : Document} {data : Data}
  {isRead : Node → Load.Value → Bool}

/-- Where a path leads in a document, with merges expanded. -/
def follow? (d : Document) (path : List String) : Option (Range × Option Node) :=
  d.view.walk? d.view.find? (d.tree.top.range, some d.tree.top) path

/-- The key or the item that decoding takes the value at a way from, with the node of the value. -/
def origin? (d : Document) (way : List String) : Option (Range × Option Node) :=
  d.view.walk? d.view.taken? (d.tree.top.range, some d.tree.top) way

/-- No mapping that is decoded on a way, before its end, merges one with merges of its own. -/
def IsPlainTo (d : Document) (way : List String) : Prop :=
  ∀ before range n, before <+: way → before ≠ way → d.origin? before = some (range, some n) → d.view.MergesPlain n

/-- No mapping that is decoded merges one with merges of its own. -/
def MergesPlainly (d : Document) (data : Data) : Prop :=
  ∀ way part range n, Leads data way part → d.origin? way = some (range, some n) → d.view.MergesPlain n

/-- A step that leads somewhere is taken. A number is read as one of 64 bits. -/
theorem go_of_step? {range : Range} {n : Node} {part : String} {next : Range × Option Node}
    (hitems : (d.view.items n).length ≤ 2 ^ 64) (h : d.view.step? d.view.find? (range, some n) part = some next)
    (rest : List String) : pathRange.go d range (some n) (part :: rest) = pathRange.go d next.1 next.2 rest := by
  rw [pathRange.go]
  cases hm : d.view.mapping? n with
  | some m =>
    rw [step?_of_mapping? hm] at h
    obtain ⟨p, hp, rfl⟩ := Option.map_eq_some_iff.mp h
    rw [sequence?_of_mapping? hm, hp]
    rfl
  | none =>
    rw [step?_of_mapping?_eq_none hm] at h
    obtain ⟨i, hi, rfl⟩ := Option.map_eq_some_iff.mp h
    obtain ⟨index, rfl, hget⟩ := numbered?_eq_some_iff.mp hi
    have hsequence : (d.view.sequence? n).isSome := by
      cases hs : d.view.sequence? n with
      | none => simp [items, hs] at hget
      | some s => rfl
    have hindex : index < 2 ^ 64 := Nat.lt_of_lt_of_le (List.getElem?_eq_some_iff.mp hget).1 hitems
    have hdigits : (toString index).toList = Nat.toDigits 10 index := Nat.toList_repr
    rw [if_pos hsequence, hdigits, Text.unsigned?_toDigits hindex, Option.bind_some, hget]

/-- A path goes on from where its start leads. -/
theorem go_append {range : Range} {n? : Option Node} {target : Range × Option Node} {path : List String}
    (rest : List String) (hitems : ∀ n m, n? = some n → d.view.Reaches n m → (d.view.items m).length ≤ 2 ^ 64)
    (h : d.view.walk? d.view.find? (range, n?) path = some target) :
    pathRange.go d range n? (path ++ rest) = pathRange.go d target.1 target.2 rest := by
  induction path generalizing range n? with
  | nil =>
    obtain rfl := Option.some.inj h
    rfl
  | cons part path ih =>
    rw [walk?_cons] at h
    obtain ⟨next, hnext, hrest⟩ := Option.bind_eq_some_iff.mp h
    cases n? with
    | none => cases hnext
    | some n =>
      rw [List.cons_append, go_of_step? (hitems n n rfl .refl) hnext]
      refine ih (fun m k hm hk => ?_) hrest
      obtain ⟨_, hsame, hreach⟩ := reaches_of_step? below_of_find? hnext hm
      exact hitems _ k hsame (hreach.trans hk)

private theorem go_of_find?_eq_none {range : Range} {n : Node} {name : String} (hsequence : d.view.sequence? n = none)
    (hfind : d.view.find? n name = none) (rest : List String) :
    pathRange.go d range (some n) (name :: rest) = range := by
  rw [pathRange.go, hsequence, hfind]
  rfl

/-- A pair without braces around it holds neither a mapping nor a sequence, and the merge key of a mapping is no key of
what it stands for. So a path goes no further there. -/
theorem go_stops {range : Range} {n : Node} {name : String}
    (h : n.kind = .flowPair ∨ name = mergeKey ∧ (d.view.mapping? n).isSome) (rest : List String) :
    pathRange.go d range (some n) (name :: rest) = range := by
  rcases h with hkind | ⟨rfl, hmapping⟩
  · have hcontent : d.view.content? n = some n := by
      rw [View.content?, contentWithin, hkind]
    have hsequence : d.view.sequence? n = none := by
      rw [sequence?, hcontent, Option.filter_some, hkind]
      rfl
    refine go_of_find?_eq_none hsequence ?_ rest
    cases hfind : d.view.find? n name with
    | none => rfl
    | some p =>
      obtain ⟨m, hm⟩ := exists_mapping?_of_find? hfind
      rw [mapping?, hcontent, Option.filter_some, hkind] at hm
      cases hm
  · obtain ⟨m, hm⟩ := Option.isSome_iff_exists.mp hmapping
    exact go_of_find?_eq_none (sequence?_of_mapping? hm) (find?_mergeKey _ n) rest

/-- A path that is followed everywhere has the place that it leads to, and more of a path counts from there. -/
theorem pathRange_append (hd : Read.ofTreeWith nested kind t = .ok d) (hsize : t.root.size ≤ 2 ^ 64)
    {path : List String} {place : Range × Option Node} (h : d.follow? path = some place) (rest : List String) :
    d.pathRange (path ++ rest) = pathRange.go d place.1 place.2 rest := by
  refine go_append rest (fun n m hn hm => ?_) h
  obtain rfl := Option.some.inj hn
  rw [Read.view_of_ofTreeWith hd] at hm ⊢
  rw [Read.tree_of_ofTreeWith hd] at hm
  exact (length_items_le (mem_preorder_of_reaches (Tree.top_mem_preorder _) hm)).trans hsize

/-- Where merges are plain on a way, a path follows it to what is decoded. -/
theorem follow?_eq_origin? (ht : t.IsNumbered) (hd : Read.ofTreeWith nested kind t = .ok d) {way : List String}
    (hplain : d.IsPlainTo way) :
    d.follow? way = d.origin? way := by
  refine walk?_find?_eq rfl (fun a b ha hb => ?_) fun before target n hstart hne htarget hn => ?_
  · rw [Read.view_of_ofTreeWith hd, Read.tree_of_ofTreeWith hd] at ha hb
    exact View.eq_of_id_eq ht t.top_mem_preorder ha hb
  · exact hplain before target.1 n hstart hne (htarget.trans (congrArg some (Prod.ext rfl hn)))

/-- Suppose that the decoded data comes from the top of the document. Then paths follow all ways into the data just if
all merges are plain. -/
theorem follows_iff_mergesPlainly (ht : t.IsNumbered) (hd : Read.ofTreeWith nested kind t = .ok d)
    (hdistinct : HasDistinctNames data)
    (htop : Load.ComesFrom d.view isRead (some d.tree.top) data) :
    (∀ way part, Leads data way part → d.follow? way = d.origin? way) ↔ d.MergesPlainly data := by
  constructor
  · intro hfollows way part range n hleads horigin
    by_contra hnested
    obtain ⟨target, htarget, hcomes⟩ := htop.exists_walk? hdistinct hleads d.tree.top.range
    obtain rfl := Option.some.inj (htarget.symm.trans horigin)
    -- The data has a merge key at this way, but a path with it stops.
    obtain ⟨entries, below, rfl, hmem⟩ := hcomes.mergeKey_mem hnested
    have hbelow := hleads.append (.entry hmem (.here below))
    obtain ⟨_, m, hsame, hm⟩ := hcomes.exists_mapping?
    obtain rfl := Option.some.inj hsame
    obtain ⟨next, hnext, -⟩ := htop.exists_walk? hdistinct hbelow d.tree.top.range
    have hstops : d.follow? (way ++ [mergeKey]) = none := by
      rw [follow?, walk?_append, ← follow?, hfollows way _ hleads, horigin, Option.bind_some, walk?_cons,
        step?_of_mapping? hm, find?_mergeKey]
      rfl
    cases hstops.symm.trans ((hfollows _ _ hbelow).trans hnext)
  · intro hplain way part hleads
    refine follow?_eq_origin? ht hd fun before range n hstart _ horigin => ?_
    obtain ⟨after, rfl⟩ := hstart
    obtain ⟨middle, hmiddle⟩ := hleads.exists_of_append
    exact hplain before middle range n hmiddle horigin

/-- A path has the place of what it leads to, with merges expanded: the top of the document, a key or an item. It goes
no further into a pair without braces, nor with a merge key. Suppose that the text of the tree can be decoded, and that
the value that is loaded from it is what the tree stands for. Then each way into the data leads to what its part is
decoded from, and a path follows it where the merges before its end are plain; so paths follow all ways just if all
merges are plain. A violation of a schema is then reported at the key or the item that its part is decoded from. -/
theorem pathRange_exact (ht : t.IsNumbered) (hsize : t.root.size ≤ 2 ^ 64)
    (hd : Read.ofTreeWith nested kind t = .ok d) :
    d.pathRange [] = d.tree.top.range ∧
    (∀ path place, d.follow? path = some place → d.pathRange path = place.1) ∧
    (∀ path range n name rest, d.follow? path = some (range, some n) →
      (n.kind = .flowPair ∨ name = mergeKey ∧ (d.view.mapping? n).isSome) →
      d.pathRange (path ++ name :: rest) = range) ∧
    ∀ (loader : Load.Loader) isRead value data, loader.IsStandard → loader.LoadsFrom t isRead value →
      loader.decode t.source = .ok data →
      (∀ way part, Leads data way part →
        ∃ place, d.origin? way = some place ∧ Load.ComesFrom d.view isRead place.2 part) ∧
      (∀ way, d.IsPlainTo way → d.follow? way = d.origin? way) ∧
      ((∀ way part, Leads data way part → d.follow? way = d.origin? way) ↔ d.MergesPlainly data) ∧
      ∀ schema : Schema, schema.PointsInto data → ∀ v ∈ schema.violations data, d.IsPlainTo v.path →
        ∃ place, d.origin? v.path = some place ∧ (Check.violation d v).range = place.1 := by
  have hfollow : ∀ path place, d.follow? path = some place → d.pathRange path = place.1 := by
    intro path place h
    have happend := pathRange_append hd hsize h []
    rwa [List.append_nil, pathRange.go] at happend
  refine ⟨rfl, hfollow, fun path range n name rest h hend => ?_, fun loader isRead value data hl hload hdecode => ?_⟩
  · rw [pathRange_append hd hsize h, go_stops hend]
  · have htop : Load.ComesFrom d.view isRead (some d.tree.top) data := by
      rw [Read.view_of_ofTreeWith hd, Read.tree_of_ofTreeWith hd]
      exact hload.comesFrom hl hdecode
    have hdistinct := hasDistinctNames_of_decode hl hdecode
    have horigin : ∀ way part, Leads data way part →
        ∃ place, d.origin? way = some place ∧ Load.ComesFrom d.view isRead place.2 part :=
      fun way part hleads => htop.exists_walk? hdistinct hleads d.tree.top.range
    refine ⟨horigin, fun way => follow?_eq_origin? ht hd, follows_iff_mergesPlainly ht hd hdistinct htop, ?_⟩
    intro schema hpoints v hv hplain
    obtain ⟨-, part, hleads⟩ := hpoints.path_of_mem (List.mem_filter.mp hv).1
    obtain ⟨place, hplace, -⟩ := horigin v.path part hleads
    exact ⟨place, hplace, hfollow v.path place ((follow?_eq_origin? ht hd hplain).trans hplace)⟩

/-- A key that comes from a merged mapping has the place of the key there, and the data is decoded from its value. -/
theorem pathRange_exact_of_listMerge :
    Load.listMerge.IsNumbered ∧ Load.listMerge.root.size ≤ 2 ^ 64 ∧ Load.Loader.standard.IsStandard ∧
      ∃ d value data part place, parseTree .strict .config Load.listMerge = .ok d ∧
        Load.Loader.standard.LoadsFrom Load.listMerge (Load.isText (.ofTree Load.listMerge)) value ∧
        Load.Loader.standard.decode Load.listMerge.source = .ok data ∧
        Leads data ["b", "x"] part ∧ d.origin? ["b", "x"] = some place ∧
        Load.ComesFrom d.view (Load.isText (.ofTree Load.listMerge)) place.2 part ∧ place.1 = ⟨⟨1, 2⟩, ⟨1, 3⟩⟩ ∧
        d.pathRange ["b", "x"] = place.1 := by
  have hread : (parseTree .strict .config Load.listMerge).toOption.map (fun d =>
      ((d.origin? ["b", "x"]).map Prod.fst, (d.follow? ["b", "x"]).map Prod.fst)) =
      some (some ⟨⟨1, 2⟩, ⟨1, 3⟩⟩, some ⟨⟨1, 2⟩, ⟨1, 3⟩⟩) := by
    decide +kernel
  have hpart : ((Load.Loader.standard.decode Load.listMerge.source).toOption.bind (at? · ["b", "x"])).isSome := by
    decide +kernel
  have hnumbered : Load.listMerge.IsNumbered := Grammar.isNumbered_tree _ _
  have hsize : Load.listMerge.root.size ≤ 2 ^ 64 := by decide +kernel
  obtain ⟨d, hparse, hpair⟩ := Option.map_eq_some_iff.mp hread
  obtain ⟨horigin, hfollow⟩ := Prod.mk.inj hpair
  obtain ⟨part, hat⟩ := Option.isSome_iff_exists.mp hpart
  obtain ⟨data, hdata, hat⟩ := Option.bind_eq_some_iff.mp hat
  obtain ⟨value, -, hload, -⟩ := Load.exists_loadsFrom_listMerge
  have hd := eq_ok_of_toOption hparse
  have hdecode := eq_ok_of_toOption hdata
  obtain ⟨-, hplace, -, hdecoded⟩ := pathRange_exact hnumbered hsize hd
  obtain ⟨horigins, -⟩ := hdecoded _ _ value data Load.Loader.isStandard_standard hload hdecode
  obtain ⟨place, hway, hcomes⟩ := horigins ["b", "x"] part (leads_of_at? hat)
  obtain ⟨reached, hreached, hrange⟩ := Option.map_eq_some_iff.mp hfollow
  have horiginRange : place.1 = ⟨⟨1, 2⟩, ⟨1, 3⟩⟩ := by
    rw [hway] at horigin
    exact Option.some.inj horigin
  exact ⟨hnumbered, hsize, Load.Loader.isStandard_standard, d, value, data, part, place, hd, hload, hdecode,
    leads_of_at? hat, hway, hcomes, horiginRange, (hplace _ _ hreached).trans (hrange.trans horiginRange.symm)⟩

/-- A pair without braces as an item. -/
def barePair : Tree := Grammar.strict.tree "x: [a: 1]\n".toList

/-- The data has the key of the pair, but a path to it stops at the item. -/
theorem pathRange_stops_at_barePair : ∃ d data part, parseTree .strict .config barePair = .ok d ∧
    Check.isBroken d = false ∧ Load.Loader.standard.decode barePair.source = .ok data ∧
    Leads data ["x", "0", "a"] part ∧
    d.pathRange ["x", "0", "a"] = ⟨⟨0, 4⟩, ⟨0, 8⟩⟩ ∧ d.pathRange ["x", "0"] = ⟨⟨0, 4⟩, ⟨0, 8⟩⟩ := by
  have hread : (parseTree .strict .config barePair).toOption.map (fun d =>
      (Check.isBroken d, d.pathRange ["x", "0", "a"], d.pathRange ["x", "0"])) =
      some (false, ⟨⟨0, 4⟩, ⟨0, 8⟩⟩, ⟨⟨0, 4⟩, ⟨0, 8⟩⟩) := by
    decide +kernel
  have hpart : ((Load.Loader.standard.decode barePair.source).toOption.bind (at? · ["x", "0", "a"])).isSome := by
    decide +kernel
  obtain ⟨d, hparse, hfound⟩ := Option.map_eq_some_iff.mp hread
  obtain ⟨hbroken, hranges⟩ := Prod.mk.inj hfound
  obtain ⟨hkey, hitem⟩ := Prod.mk.inj hranges
  obtain ⟨part, hat⟩ := Option.isSome_iff_exists.mp hpart
  obtain ⟨data, hdata, hat⟩ := Option.bind_eq_some_iff.mp hat
  exact ⟨d, data, part, eq_ok_of_toOption hparse, hbroken, eq_ok_of_toOption hdata, leads_of_at? hat, hkey, hitem⟩

end Document

end PipelineLint
