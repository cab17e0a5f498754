import CrossDoc.Run.Context

/-!
# Merging modules

The modules of all passes become one.  Siblings with one identity become one
declaration that stands where the first of them stands; it has the kind, name
and parent of the first, the facts of all of them, where an earlier one goes
before a later one, and the merged members of all of them.  A declaration that
occurs once is kept as it is.
-/

namespace CrossDoc

namespace Declaration

mutual

/-- The number of levels of a tree. -/
def height : Declaration → Nat
  | ⟨_, _, _, _, _, children⟩ => 1 + heightAll children

def heightAll : List Declaration → Nat
  | [] => 0
  | d :: rest => max d.height (heightAll rest)

end

/-- The siblings that share an identity, for each identity in order of first
occurrence. -/
def groups (siblings : List Declaration) : List (List Declaration) :=
  (siblings.map (·.id)).eraseDups.map fun id => siblings.filter fun d => d.id == id

/-- The facts of several declarations; of two for one platform the first
count. -/
def mergedFacts (group : List Declaration) : FactsMap :=
  group.foldl (fun facts d => facts.merge d.facts) .empty

/-- The members of several declarations, one list after the other. -/
def allChildren (group : List Declaration) : List Declaration := group.flatMap (·.children)

/-- Merges the siblings of several modules, given one list after the other,
down to `levels` levels. -/
def mergeSiblings : Nat → List Declaration → List Declaration
  | 0, siblings => siblings
  | levels + 1, siblings =>
      (groups siblings).filterMap fun group =>
        match group with
        | [] => none
        | [d] => some d
        | d :: _ :: _ =>
            some { d with
              facts := mergedFacts group
              children := mergeSiblings levels (allChildren group) }

/-- What is said about the members of a group whose kind is not that of the
first. -/
def kindMismatches (first : Declaration) (group : List Declaration) : List Text :=
  group.filterMap fun d =>
    if d.kind = first.kind then none
    else some (first.id.toText ++ " is a " ++ d.kind.name ++ " on one platform and a " ++
      first.kind.name ++ " on another; keeping " ++ first.kind.name ++
      " from the first platform")

/-- The mismatches of all groups, in the order in which they are merged. -/
def mismatches : Nat → List Declaration → List Text
  | 0, _ => []
  | levels + 1, siblings =>
      (groups siblings).flatMap fun group =>
        match group with
        | [] => []
        | [_] => []
        | d :: _ :: _ => kindMismatches d group ++ mismatches levels (allChildren group)

end Declaration

namespace DocModule

/-- The merged module, without report. -/
def merged (ms : List DocModule) : DocModule :=
  let siblings := ms.flatMap (·.packages)
  { name := (ms.find? fun m => !m.name.isEmpty).elim [] (·.name)
    facts := ms.foldl (fun facts m => facts.merge m.facts) .empty
    packages := Declaration.mergeSiblings (Declaration.heightAll siblings) siblings }

def noModules : Failure :=
  .ofConfiguration "no platforms to merge: at least one pass must be configured"

def reportMismatches : List Text → Traced Unit
  | [] => pure ()
  | t :: rest => do
      Traced.log .debug "merge" t
      reportMismatches rest

/-- Merges the modules of all passes.  A single module is kept as it is. -/
def merge : List DocModule → Traced (Except Failure DocModule)
  | [] => pure (.error noModules)
  | [m] => pure (.ok m)
  | m :: m' :: rest => do
      let ms := m :: m' :: rest
      let siblings := ms.flatMap (·.packages)
      reportMismatches (Declaration.mismatches (Declaration.heightAll siblings) siblings)
      let result := merged ms
      Traced.log .debug "merge"
        ("merged " ++ Text.ofNat ms.length ++ " module(s) into " ++ Text.ofNat result.count ++
          " documentable(s) on " ++ Text.ofNat result.facts.size ++ " platform(s)")
      return .ok result

end DocModule

end CrossDoc
