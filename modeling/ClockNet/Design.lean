import ClockNet.Module

/-! Designs: modules in order of creation, with unique names. A cell whose type is the
name of a module is an instance of it; any other type is a primitive. The signatures of a
design are the directions of all ports, by module and port name. -/

namespace ClockNet

/-- A list of modules with unique names. -/
structure Design where
  modules : List Module := []
deriving DecidableEq, Inhabited

namespace Design

def find? (d : Design) (name : String) : Option Module :=
  d.modules.find? (·.name == name)

def add (d : Design) (m : Module) : Design := ⟨d.modules ++ [m]⟩

/-- Appends a module whose name no other module has. -/
def add? (d : Design) (m : Module) : Option Design :=
  if (d.find? m.name).isNone then some (d.add m) else none

/-- Puts a module in the place of the one with its name. -/
def replace (d : Design) (m : Module) : Design :=
  ⟨d.modules.map fun old => if old.name = m.name then m else old⟩

/-- The first module marked as the top of the hierarchy. -/
def top? (d : Design) : Option Module := d.modules.find? Module.isTop

end Design

/-- Port directions by module and port name. -/
structure Signatures where
  modules : List (String × List (String × Direction)) := []
deriving DecidableEq, Inhabited

namespace Signatures

def ofModule (m : Module) : List (String × Direction) :=
  m.ports.filterMap fun id => (m.wire id).direction.map fun d => ((m.wire id).name, d)

def ofDesign (d : Design) : Signatures := ⟨d.modules.map fun m => (m.name, ofModule m)⟩

/-- The direction of a port of a cell. A module of the design fixes the directions of its
instances; for any other type the directions recorded with the cell count. -/
def direction (s : Signatures) (c : Cell) (port : String) : Option Direction :=
  match s.modules.find? (·.1 == c.type) with
  | some (_, ports) => (ports.find? (·.1 == port)).map (·.2)
  | none => c.directions.get? port

def isOutput (s : Signatures) (c : Cell) (port : String) : Bool :=
  (s.direction c port).any Direction.isOutput

def isInput (s : Signatures) (c : Cell) (port : String) : Bool :=
  (s.direction c port).any Direction.isInput

end Signatures

end ClockNet
