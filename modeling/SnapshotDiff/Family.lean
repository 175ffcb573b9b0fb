import SnapshotDiff.Table

/-!
# Families and actions

The families of entities that have snapshots, the actions that change an entity, and their
names.

## Main definitions

* `Family`, `Family.name`, `Family.ofName` — the families and their names.
* `Action`, `Action.name`, `Action.ofName` — the actions and their names.
* `Action.infer?` — the action that an event's snapshots tell of.
-/

namespace SnapshotDiff

/-- A name that nothing is called. -/
inductive NameError
  | unknownFamily (name : String)
  | unknownAction (name : String)
  deriving DecidableEq, Repr

/-- The wording of the error. -/
def NameError.message : NameError → String
  | unknownFamily name => "unknown entity family: " ++ name
  | unknownAction name => "unknown audit action: " ++ name

/-- A family of entities with one shape. -/
inductive Family
  | item
  | holdings
  | inventoryInstance
  | user
  | marcBib
  | marcAuthority
  deriving DecidableEq, Repr

namespace Family

/-- Every family, in their order. -/
def all : List Family := [item, holdings, inventoryInstance, user, marcBib, marcAuthority]

/-- The name of the family in files and on the command line. -/
def name : Family → String
  | item => "item"
  | holdings => "holdings"
  | inventoryInstance => "instance"
  | user => "user"
  | marcBib => "marc-bib"
  | marcAuthority => "marc-authority"

/-- The family with a name. -/
def ofName? (s : String) : Option Family := all.find? fun f => f.name = s

/-- The family with a name, or the error that there is none. -/
def ofName (s : String) : Except NameError Family :=
  match ofName? s with
  | some f => .ok f
  | none => .error (.unknownFamily s)

/-- The family's entities are MARC records. -/
def isMarc : Family → Bool
  | marcBib | marcAuthority => true
  | _ => false

/-- The place of the family in their order. -/
def index (f : Family) : Nat := all.idxOf f

theorem mem_all (f : Family) : f ∈ all := by cases f <;> decide

@[simp] theorem ofName?_name (f : Family) : ofName? f.name = some f := by cases f <;> decide

end Family

/-- What happened to an entity. -/
inductive Action
  | create
  | update
  | delete
  deriving DecidableEq, Repr

namespace Action

/-- Every action. -/
def all : List Action := [create, update, delete]

/-- The name of the action. -/
def name : Action → String
  | create => "CREATE"
  | update => "UPDATE"
  | delete => "DELETE"

/-- The action with a name. -/
def ofName? (s : String) : Option Action := all.find? fun a => a.name = s

/-- The action with a name, or the error that there is none. -/
def ofName (s : String) : Except NameError Action :=
  match ofName? s with
  | some a => .ok a
  | none => .error (.unknownAction s)

/-- The action of an event, from which of the two snapshots it carries; an event without any
tells of none. -/
def infer? : (oldPresent newPresent : Bool) → Option Action
  | false, true => some create
  | true, true => some update
  | true, false => some delete
  | false, false => none

@[simp] theorem ofName?_name (a : Action) : ofName? a.name = some a := by cases a <;> decide

end Action

end SnapshotDiff
