import TautShape.Crdt.Node
import TautShape.Crdt.TextParser
/-!
# The text projection

`project_text`, function by function: the atoms that the bootstrap and the operations of a
node carry, the forest that they make up, and the traversal that puts their text out.
-/

namespace TautShape.Crdt.Text

open TautShape.Lib

structure TextProjection where
  text : String
  diagnostics : List String
deriving DecidableEq, Repr

/-- `key` is the origin and the number of the operation that carried the atom. -/
structure Atom where
  after : Option String
  text : String
  key : String × Int
deriving DecidableEq, Repr

/-- `candidate_key(a) < candidate_key(b)`. -/
def Atom.candidateBefore (a b : Atom) : Bool :=
  (compareLex (compareOn fun atom : Atom => atom.after.getD "")
    (compareLex (compareOn Atom.text)
      (compareLex (compareOn fun atom : Atom => atom.key.1)
        (compareOn fun atom : Atom => atom.key.2))) a b).isLT

/-! ## Atoms -/

/-- What the first half of `project_text` collects. -/
structure Collected where
  atoms : BTreeMap String Atom
  deleted : BTreeSet String
  diagnostics : BTreeSet String

namespace Collected

def empty : Collected := ⟨∅, ∅, ∅⟩

def diagnose (c : Collected) (diagnostic : String) : Collected :=
  { c with diagnostics := c.diagnostics.insert diagnostic }

def afterValue : Json → Option (Option String)
  | .null => some none
  | .string value => some (some value)
  | _ => none

/-- An atom of a bootstrap, and whether it is deleted. -/
def parseRow (fields : List (String × Json)) : Option (String × Atom × Bool) := do
  if fields.length ≠ 4 then
    none
  let atomId ← (← field fields "atom_id").string?
  let after ← afterValue (← field fields "after")
  let text ← (← field fields "text").string?
  let isDeleted ← (← field fields "deleted").bool?
  if atomId.isEmpty || text.isEmpty then
    none
  return (atomId, ⟨after, text, ("", 0)⟩, isDeleted)

def addRow (c : Collected) (row : Json) : Collected :=
  match row.object?.bind parseRow with
  | some (atomId, atom, isDeleted) =>
      { c with
        atoms := c.atoms.insert atomId atom
        deleted := if isDeleted then c.deleted.insert atomId else c.deleted }
  | none => c.diagnose "invalid_bootstrap"

def bootstrapRows (state : Bytes) : Option (List Json) := do
  let fields ← (← Parser.parse state).object?
  if fields.length ≠ 1 then
    none
  match ← field fields "atoms" with
  | .array rows => some rows
  | _ => none

def addBootstrap (c : Collected) (bootstrap : CrdtBootstrap) : Collected :=
  match bootstrapRows bootstrap.state with
  | some rows => rows.foldl addRow c
  | none => c.diagnose "invalid_bootstrap"

/-- Of two atoms under one name the lesser candidate stays. -/
def insertAtom (c : Collected) (atomId : String) (candidate : Atom) : Collected :=
  match c.atoms[atomId]? with
  | some previous =>
      if previous ≠ candidate then
        let c := c.diagnose ("atom_equivocation:" ++ atomId)
        if candidate.candidateBefore previous then
          { c with atoms := c.atoms.insert atomId candidate }
        else c
      else c
  | none => { c with atoms := c.atoms.insert atomId candidate }

def payloadFields (payload : Bytes) : Option (String × List (String × Json)) := do
  let fields ← (← Parser.parse payload).object?
  let atomId ← (← field fields "atom_id").string?
  if atomId.isEmpty then
    none
  return (atomId, fields)

def candidate (op : CrdtOp) (fields : List (String × Json)) : Option Atom := do
  let after ← afterValue (← field fields "after")
  let text ← (← field fields "text").string?
  if text.isEmpty then
    none
  return ⟨after, text, (op.origin, op.seq)⟩

def addOp (c : Collected) (op : CrdtOp) : Collected :=
  let invalid := c.diagnose ("invalid_payload:" ++ op.origin ++ ":" ++ toString op.seq)
  match payloadFields op.payload with
  | none => invalid
  | some (atomId, fields) =>
      let kind := (field fields "kind").bind Json.string?
      if kind = some "delete" ∧ fields.length = 2 then
        { c with deleted := c.deleted.insert atomId }
      else if kind = some "insert" ∧ fields.length = 4 then
        match candidate op fields with
        | some candidate => c.insertAtom atomId candidate
        | none => invalid
      else invalid

end Collected

/-- The winning atoms of a node, and what is wrong with the rest. -/
def collect (n : CrdtNode) : Collected :=
  n.operations.foldl Collected.addOp
    (match n.bootstrap with
    | some bootstrap => Collected.empty.addBootstrap bootstrap
    | none => Collected.empty)

/-! ## The forest -/

/-- What `visit` reads. -/
structure Graph where
  atoms : BTreeMap String Atom
  children : BTreeMap (Option String) (List String)
  deleted : BTreeSet String

abbrev Linking : Type := BTreeMap (Option String) (List String) × BTreeSet String

/-- The body of the loop over the atoms. -/
def link (atoms : BTreeMap String Atom) (s : Linking) (entry : String × Atom) : Linking :=
  if entry.2.after.any fun parent => !atoms.contains parent then
    (s.1, s.2.insert ("missing_parent:" ++ entry.1 ++ ":" ++ entry.2.after.getD ""))
  else
    (s.1.insert entry.2.after (s.1.getD entry.2.after [] ++ [entry.1]), s.2)

def linkAll (c : Collected) : Linking := c.atoms.toList.foldl (link c.atoms) (∅, c.diagnostics)

/-- `pushed` is not in the source: the atoms whose text went to `output`, in this order. -/
structure VisitState where
  diagnostics : BTreeSet String
  visiting : BTreeSet String
  visited : BTreeSet String
  output : String
  pushed : List String

namespace Graph

/-- `output.push_str(&atoms[atom_id].text)` unless the atom is deleted.  The index panics
for a name without an atom. -/
def push (g : Graph) (s : VisitState) (atomId : String) : Option VisitState :=
  if g.deleted.contains atomId then some s
  else do
    let atom ← g.atoms[atomId]?
    return { s with output := s.output ++ atom.text, pushed := s.pushed ++ [atomId] }

/-- The recursion down to a depth; deeper it has no result. -/
def visit (g : Graph) : Nat → VisitState → String → Option VisitState
  | 0, _, _ => none
  | depth + 1, s, atomId => do
      if s.visiting.contains atomId then
        return { s with diagnostics := s.diagnostics.insert ("cycle:" ++ atomId) }
      if s.visited.contains atomId then
        return s
      let s ← g.push { s with visiting := s.visiting.insert atomId } atomId
      let s ← (g.children.getD (some atomId) []).foldlM (g.visit depth) s
      return { s with
        visiting := s.visiting.erase atomId
        visited := s.visited.insert atomId }

/-- The body of the loop over the atoms that no root reached. -/
def visitLeftover (g : Graph) (depth : Nat) (s : VisitState) (atomId : String) :
    Option VisitState :=
  if !s.visited.contains atomId ∧
      ((g.atoms[atomId]?.bind Atom.after).any fun parent => g.atoms.contains parent) then
    g.visit depth s atomId
  else some s

end Graph

/-- The second half of `project_text`. -/
def traverse (depth : Nat) (n : CrdtNode) : Option VisitState := do
  let c := collect n
  let (children, diagnostics) := linkAll c
  let g : Graph := ⟨c.atoms, children, c.deleted⟩
  let s ← (children.getD none []).foldlM (g.visit depth) ⟨diagnostics, ∅, ∅, "", []⟩
  c.atoms.keys.foldlM (g.visitLeftover depth) s

def projectText (depth : Nat) (n : CrdtNode) : Option TextProjection := do
  let s ← traverse depth n
  return ⟨s.output, s.diagnostics.toList⟩

end TautShape.Crdt.Text
