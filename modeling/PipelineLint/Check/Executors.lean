import PipelineLint.Check.Scope

/-! # Executors

Resource classes, machine images and Xcode versions must be known, and must fit together.

Of a Docker image some things can be said from its reference alone, and others follow from the answers of Docker Hub.
Quick fixes write the reference anew.
-/

namespace PipelineLint.Check

def retiredOwner : String := "circleci"

def successorOwner : String := "cimg"

def maxOfferedTags : Nat := 3

def replaceFirst (old new text : String) : String :=
  match Text.cut? old.toList text.toList with
  | some (before, after) => String.ofList before ++ new ++ String.ofList after
  | none => text

/-- An image of the owner whose images have been replaced. -/
def retiredImage (spec : ImageSpec) : Diagnostic :=
  ((Diagnostic.warning .deprecatedImage spec.imageRange
    ("Docker images from `circleci` namespace are deprecated. " ++
      "Please use its `cimg` namespace's alternative.")).withTag .deprecated).withAction
    (Action.replace "Use `cimg` namespace's alternative" spec.imageRange
      ("image: " ++ replaceFirst retiredOwner successorOwner spec.image.fullPath)).prefer

/-- What is said about an image before Docker Hub is asked. -/
def image (s : Scope) (spec : ImageSpec) : List Notice :=
  let retired := if spec.image.owner == retiredOwner then [.finding (retiredImage spec)] else []
  let tag :=
    if !spec.isCheckable || spec.image.hasParameterTag then []
    else if s.settings.checksImages then [.image spec]
    else if spec.image.tag.isEmpty then [.finding (.hint .invalidImage spec.imageRange "Missing image tag")]
    else []
  retired ++ tag

def imageNotFound (spec : ImageSpec) : Diagnostic :=
  .error .imageNotFound spec.imageRange ("Docker image not found \"" ++ spec.image.fullPath ++ "\"")

/-- The reference of an image without its tag, as a quick fix writes it. -/
def bareReference (i : Docker.Image) : String :=
  if i.owner == Docker.officialOwner && !Text.startsWith i.fullPath.toList "library/".toList then i.name
  else i.owner ++ "/" ++ i.name

def offerTags (spec : ImageSpec) (tags : List String) (d : Diagnostic) : Diagnostic :=
  ((tags.filter (!·.isEmpty)).take maxOfferedTags).foldl (fun d tag =>
    d.withAction (.replace ("Use tag `" ++ tag ++ "`") spec.imageRange
      ("image: " ++ bareReference spec.image ++ ":" ++ tag))) d

/-- What follows from the tags that Docker Hub has. -/
def imageTags (spec : ImageSpec) (tags : List String) : List Diagnostic :=
  if !tags.contains spec.image.lookupTag then
    [offerTags spec tags (.error .imageNotFound spec.imageRange
      ("Docker image \"" ++ spec.image.fullPath ++ "\" has no tag \"" ++ spec.image.lookupTag ++ "\""))]
  else if spec.image.tag.isEmpty then
    [offerTags spec tags (.hint .invalidImage spec.imageRange "It is recommended to set explicit tags")]
  else []

open Catalog

def unknownResourceClass (e : Executor) : Diagnostic :=
  .error .invalidResourceClass e.resourceClassRange ("Unknown resource class \"" ++ e.resourceClass ++ "\"")

/-- Checks that a resource class is one of some. Parameters and self-hosted runners can be anything. -/
def resourceClass (e : Executor) (valid : List String) (context : String) : List Diagnostic :=
  if Reference.occursIn e.resourceClass || isSelfHostedRunner e.resourceClass ||
      valid.contains e.resourceClass then []
  else [.error .invalidResourceClass e.resourceClassRange
    ("Invalid resource class \"" ++ e.resourceClass ++ "\" for " ++ context)]

/-- Checks an executor on macOS: the version of Xcode decides which resource classes there are. -/
def macosExecutor (e : Executor) (xcode : String) (xcodeRange : Range) : List Diagnostic :=
  let context := "Xcode version \"" ++ xcode ++ "\""
  if Reference.occursIn xcode then []
  else if xcodeAppleSiliconVersions.contains xcode then
    resourceClass e macosAppleSiliconResourceClasses context
  else if xcodeIntelVersions.contains xcode then resourceClass e macosIntelResourceClasses context
  else [.error .invalidXcode xcodeRange ("Invalid Xcode version " ++ xcode)]

def fitsClass (e : Executor) (family : MachineFamily) : Bool :=
  Reference.occursIn e.resourceClass || family.resourceClasses.contains e.resourceClass

def fitsImage (m : Machine) (family : MachineFamily) : Bool :=
  Reference.occursIn m.image || family.images.contains m.image

/-- The image and the resource class are of different families. -/
def imageOfOtherClass (e : Executor) (m : Machine) : Diagnostic :=
  let d := Diagnostic.error .invalidImage e.range ("Machine image \"" ++ m.image ++
    "\" is not available for resource class \"" ++ e.resourceClass ++ "\"")
  let family := MachineFamily.ofResourceClass e.resourceClass
  match family.images.head? with
  | some suggestion => d.withHelp ("Resource class \"" ++ e.resourceClass ++ "\" runs " ++ family.name ++
      " images such as `" ++ suggestion ++ "`")
  | none => d

def machineExecutor (s : Scope) (e : Executor) (m : Machine) : List Diagnostic :=
  if m.isDeprecated then
    if s.settings.isLoggedIn then
      [(Diagnostic.warning .deprecatedKey m.range
        "Using `machine: true` is deprecated, please instead specify an image to use.").withTag .deprecated]
    else []
  else if m.image.isEmpty then
    if e.resourceClass.isEmpty || isSelfHostedRunner e.resourceClass ||
        Reference.occursIn e.resourceClass || isMachineResourceClass e.resourceClass then []
    else [unknownResourceClass e]
  else if isSelfHostedRunner e.resourceClass then
    [.error .invalidImage e.range ("Extraneous image \"" ++ m.image ++ "\" for self-hosted runner \"" ++
      e.resourceClass ++ "\"")]
  else if MachineFamily.all.any fun family => fitsClass e family && fitsImage m family then []
  else
    match MachineFamily.all.any (fitsClass e), MachineFamily.all.any (fitsImage m) with
    | true, true => [imageOfOtherClass e m]
    | hasClass, hasImage =>
      (if hasClass then [] else [unknownResourceClass e]) ++
        if hasImage then []
        else [.error .invalidImage m.imageRange ("Unknown machine image \"" ++ m.image ++ "\"")]

def windowsExecutor (e : Executor) (image : String) (imageRange : Range) : List Diagnostic :=
  resourceClass e (windowsResourceClasses ++ windowsGpuResourceClasses ++ linuxResourceClasses)
    "Windows executor" ++
  if image.isEmpty || Reference.occursIn image || windowsImages.contains image ||
      windowsGpuImages.contains image then []
  else [.error .invalidImage imageRange ("Unknown Windows image \"" ++ image ++ "\"")]

def executor (s : Scope) (e : Executor) : List Notice :=
  match e.kind with
  | .docker images =>
    (resourceClass e linuxResourceClasses "Docker executor").map .finding ++ images.flatMap (image s)
  | .machine m => (machineExecutor s e m).map .finding
  | .macos xcode xcodeRange => (macosExecutor e xcode xcodeRange).map .finding
  | .windows image imageRange => (windowsExecutor e image imageRange).map .finding
  | .incomplete => []

def executors (s : Scope) : List Notice :=
  s.document.executors.values.flatMap (executor s)

end PipelineLint.Check
