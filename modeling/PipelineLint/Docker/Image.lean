import PipelineLint.NameMap
import PipelineLint.Reference

/-! # Docker image references

An image is written `owner/name:tag`; images without an owner belong to `library`. `Image.parse` takes
the text apart.

Docker Hub answers whether a repository exists and which tags it has. A repository is known by the name of
its owner and its own name with a slash between them.
-/

namespace PipelineLint.Docker

section

open Text

def officialOwner : String := "library"

/-- An image reference taken apart. The name is empty where the text has no such form. The owner holds no slash,
so that owner and name can be told from both in one text. -/
structure Image where
  owner : String := ""
  name : String := ""
  /-- The tag without a digest. -/
  tag : String := ""
  /-- The reference as written, without an anchor in front. -/
  fullPath : String := ""
  slash_notMem : '/' ∉ owner.toList := by simp
  deriving DecidableEq, Repr, Inhabited

namespace Image

/-- The characters of owners and names. -/
def isNameChar (c : Char) : Bool :=
  c.isLower || c.isDigit || c == '-' || c == '_'

/-- The characters of the anchor that may stand before a reference. -/
def isAnchorChar (c : Char) : Bool :=
  c.isAlphanum || c == '-' || c == '_'

/-- The text without an anchor `&name` in front of it. -/
def dropAnchor : List Char → List Char
  | '&' :: cs =>
    match cs.takeWhile isAnchorChar with
    | [] => '&' :: cs
    | _ => trimStart (cs.dropWhile isAnchorChar)
  | cs => cs

/-- Splits an owner from the text after its slash. -/
def splitOwner (cs : List Char) : Option (List Char) × List Char :=
  match cs.takeWhile isNameChar, cs.dropWhile isNameChar with
  | c :: owner, '/' :: rest => (some (c :: owner), rest)
  | _, _ => (none, cs)

/-- Splits a reference into owner, name and what follows the colon. -/
def parts? (cs : List Char) : Option (Option (List Char) × List Char × List Char) :=
  let (owner, rest) := splitOwner cs
  match rest.takeWhile isNameChar, rest.dropWhile isNameChar with
  | [], _ => none
  | name, [] => some (owner, name, [])
  | name, ':' :: tag => if tag.contains '\n' then none else some (owner, name, tag)
  | _, _ => none

theorem slash_notMem_of_parts? {cs name tag : List Char} {owner : Option (List Char)}
    (h : parts? cs = some (owner, name, tag)) :
    '/' ∉ ((owner.map String.ofList).getD officialOwner).toList := by
  have howner : owner = (splitOwner cs).1 := by
    simp only [parts?] at h
    split at h
    · cases h
    · cases h
      rfl
    · obtain ⟨-, h⟩ := Option.ite_none_left_eq_some.mp h
      cases h
      rfl
    · cases h
  rw [howner, splitOwner]
  split
  · rename_i c rest _ hname _
    have hall : ∀ d ∈ c :: rest, isNameChar d = true := by
      rw [← hname]
      exact List.all_eq_true.mp List.all_takeWhile
    intro hmem
    exact absurd (hall '/' (by simpa using hmem)) (by decide)
  · simp [officialOwner]

/-- Takes an image reference apart. A digest after the tag is left out. -/
def parse (text : String) : Image :=
  let path := dropAnchor text.toList
  match h : parts? path with
  | none => { owner := officialOwner, fullPath := String.ofList path, slash_notMem := by decide }
  | some (owner, name, tag) =>
    { owner := (owner.map String.ofList).getD officialOwner
      name := String.ofList name
      tag := String.ofList (tag.takeWhile (· ≠ '@'))
      fullPath := String.ofList path
      slash_notMem := slash_notMem_of_parts? h }

def hasParameterTag (image : Image) : Bool :=
  Reference.occursIn image.tag

/-- The tag to look for: `latest` where none is given and where a parameter gives it, because a
parameter can stand for any tag. -/
def lookupTag (image : Image) : String :=
  if image.tag.isEmpty || image.hasParameterTag then "latest" else image.tag

end Image

end

/-- The hub does not answer about a repository. -/
structure HubUnavailable where
  repository : String
  deriving DecidableEq, Repr, Inhabited

namespace HubUnavailable

def message (e : HubUnavailable) : String := "Docker Hub unavailable: " ++ e.repository

end HubUnavailable

def repository (owner name : String) : String := owner ++ "/" ++ name

/-- A hub, by its answers to the names of an owner and a repository. -/
structure Hub where
  hasImage : String → String → Except HubUnavailable Bool
  tags : String → String → Except HubUnavailable (List String)

namespace Hub

def offline : Hub where
  hasImage owner name := .error ⟨repository owner name⟩
  tags owner name := .error ⟨repository owner name⟩

/-- The hub of given repositories; tags of one repository are put together. -/
def ofImages (images : List (String × String × List String)) : Hub :=
  let tagsOf (owner name : String) : Option (List String) :=
    let found := images.filter fun image => repository image.1 image.2.1 == repository owner name
    if found.isEmpty then none else some (found.flatMap (·.2.2))
  { hasImage := fun owner name => .ok (tagsOf owner name).isSome
    tags := fun owner name => .ok ((tagsOf owner name).getD []) }

def hasTag (hub : Hub) (owner name tag : String) : Except HubUnavailable Bool := do
  pure ((← hub.tags owner name).contains tag)

end Hub

end PipelineLint.Docker
