import PipelineLint.Check.Scope

/-! # Cycles

Names depend on each other; `stuck` finds those that can never be reached because they lie on a cycle or
behind one. Names that nothing leads to wait in a queue and are taken away one after the other, with the
edges that lead on from them; a name that loses the last edge that leads to it joins the queue. What is
never taken away is stuck.
-/

namespace PipelineLint.Check

/-- All names of a map where they appear: each key before the names it leads to. -/
def appearances (dependencies : NameMap (List String)) : List String :=
  dependencies.entries.flatMap fun (name, next) => name :: next

/-- The names of a map in the order in which they first appear. -/
def namesOf (dependencies : NameMap (List String)) : List String :=
  (appearances dependencies).eraseDups

/-- The edges of a map, each from a name to one that it leads to. Equal edges count each. -/
def edgesOf (dependencies : NameMap (List String)) : List (String × String) :=
  dependencies.entries.flatMap fun (name, next) => next.map fun other => (name, other)

/-- What could go wrong while names are taken away. -/
inductive PeelFault where
  /-- A name loses more edges than lead to it. -/
  | belowZero (name : String)
  /-- Names still wait after as many rounds as there are names. -/
  | unfinished
  deriving DecidableEq, Repr

/-- Taking names away: how many edges still lead to each name, the names that wait, and those that are
taken away. -/
structure Peel where
  counts : NameMap Nat
  queue : List String
  removed : List String := []
  deriving Repr

namespace Peel

/-- The names of edges before any is taken away. -/
def start (edges : List (String × String)) (names : List String) : Peel :=
  let count := fun name => edges.countP (·.2 == name)
  { counts := ⟨names.map fun name => (name, count name)⟩, queue := names.filter (count · == 0) }

/-- Takes away one edge that leads to a name. -/
def dropEdge (s : Peel) (target : String) : Except PeelFault Peel :=
  match s.counts.get? target with
  | some (count + 1) => .ok
    { s with
      counts := s.counts.insert target count
      queue := if count = 0 then s.queue ++ [target] else s.queue }
  | _ => .error (.belowZero target)

def targets (edges : List (String × String)) (name : String) : List String :=
  (edges.filter (·.1 == name)).map (·.2)

/-- Takes away the first name that waits, unless it is taken away already, with its edges. -/
def step (edges : List (String × String)) (s : Peel) : Except PeelFault Peel :=
  match s.queue with
  | [] => .ok s
  | name :: queue =>
    if s.removed.contains name then .ok { s with queue }
    else (targets edges name).foldlM dropEdge { s with queue, removed := s.removed ++ [name] }

/-- Takes names away until none waits, in at most so many rounds. -/
def run (edges : List (String × String)) : Nat → Peel → Except PeelFault Peel
  | 0, s => if s.queue.isEmpty then .ok s else .error .unfinished
  | rounds + 1, s => if s.queue.isEmpty then .ok s else step edges s >>= run edges rounds

end Peel

/-- Takes away the names of a map that are on no cycle and behind none. Every round takes away a name, so that as many
rounds as names are enough. -/
def peel (dependencies : NameMap (List String)) : Except PeelFault Peel :=
  let names := namesOf dependencies
  let edges := edgesOf dependencies
  Peel.run edges names.length (Peel.start edges names)

/-- The names on a cycle or behind one. -/
def stuck (dependencies : NameMap (List String)) : List String :=
  match peel dependencies with
  | .ok s => (namesOf dependencies).filter fun name => !s.removed.contains name
  | .error _ => []

/-- Finds the jobs that wait for each other in a circle, and those behind them. -/
def cycles (s : Scope) : List Notice :=
  s.document.workflows.values.flatMap fun w =>
    (stuck w.dependencies).flatMap fun name =>
      (w.jobs.filter (·.stepName == name)).map fun use =>
        .finding (.error .dependencyCycle use.jobNameRange ("The job `" ++ name ++ "` is part of a cycle"))

end PipelineLint.Check
