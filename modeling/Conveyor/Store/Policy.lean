import Conveyor.Keyed
import Conveyor.Store.Error

/-!
# Access to containers and tables

A policy allows everything, or what has been granted: reading from a container, writing to it, or
writing to a table. Each call is checked before it touches anything.

The two directions of a container are kept together, so that a grant of one of them has to leave the
other one as it is.
-/

namespace Conveyor

/-- What a policy may allow. -/
inductive Grant where
  | read (container : String)
  | write (container : String)
  | table (name : String)
  deriving DecidableEq, Repr

/-- What may be done with the objects in a container. -/
structure Access where
  read : Bool := false
  write : Bool := false
  deriving DecidableEq, Repr

/-- Which calls are allowed. -/
structure AccessPolicy where
  /-- Whether everything is allowed. -/
  unrestricted : Bool
  /-- What is allowed otherwise with the containers that have a grant. -/
  containers : List (String × Access)
  /-- The tables that may be written to otherwise. -/
  tables : List String
  deriving DecidableEq, Repr

namespace AccessPolicy

/-- Nothing is allowed. -/
def denyAll : AccessPolicy := ⟨false, [], []⟩

/-- Everything is allowed. -/
def allowAll : AccessPolicy := ⟨true, [], []⟩

/-- What has been granted for a container. -/
def access (p : AccessPolicy) (container : String) : Access :=
  (p.containers.lookup container).getD {}

/-- The policy with one grant more. -/
def grant (p : AccessPolicy) : Grant → AccessPolicy
  | .read container =>
    { p with
      containers := Keyed.insert container { p.access container with read := true } p.containers }
  | .write container =>
    { p with
      containers := Keyed.insert container { p.access container with write := true } p.containers }
  | .table name => { p with tables := p.tables.insert name }

/-- The policy that also allows reading from and writing to a container. -/
def grantReadWrite (p : AccessPolicy) (container : String) : AccessPolicy :=
  (p.grant (.read container)).grant (.write container)

/-- Whether a policy allows what a grant would. -/
def allows (p : AccessPolicy) : Grant → Bool
  | .read container => p.unrestricted || (p.access container).read
  | .write container => p.unrestricted || (p.access container).write
  | .table name => p.unrestricted || p.tables.contains name

/-- Refuses an operation on a resource without the grant for it. -/
def check (p : AccessPolicy) (g : Grant) (operation resource : String) : Except CallError Unit :=
  if p.allows g then .ok () else .error (.accessDenied operation resource)

/-- Refuses to read from a container without the grant for it. -/
def checkRead (p : AccessPolicy) (operation container : String) : Except CallError Unit :=
  p.check (.read container) operation container

/-- Refuses to write to a container without the grant for it. -/
def checkWrite (p : AccessPolicy) (operation container : String) : Except CallError Unit :=
  p.check (.write container) operation container

/-- Refuses to write to a table without the grant for it. -/
def checkTable (p : AccessPolicy) (operation table : String) : Except CallError Unit :=
  p.check (.table table) operation table

end AccessPolicy

end Conveyor
