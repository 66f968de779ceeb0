import FiniteVolume.Text.Quoted

/-!
# Subdomains

The parts of a mesh that an integral or a boundary condition applies to.
-/

namespace FiniteVolume

/-- A part of the mesh. -/
inductive Subdomain where
  | everywhere
  | boundary
  | named (name : String)
deriving DecidableEq

namespace Subdomain

/-- The name of a subdomain in messages. -/
def name : Subdomain → String
  | everywhere => "everywhere"
  | boundary => "boundary"
  | named name => name

/-- A subdomain in descriptions. -/
def describe : Subdomain → String
  | everywhere => "Everywhere"
  | boundary => "Boundary"
  | named name => "Named(" ++ Text.quote name ++ ")"

end Subdomain

end FiniteVolume
