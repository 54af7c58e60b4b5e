import Conductor.Store.Path

namespace Conductor.Store

-- The declared types of two containers allow them to stand in for one another.
def declaredCompatible (c d : Container) : Bool :=
  c.object == d.object && c.key.compatible d.key && c.element.compatible d.element

-- Compatibility inside the pairs of containers of a path. A pair that is met again is taken to be
-- compatible.
def compatibleWithin (s : Store) (path : List (Address × Address)) : Value → Value → Bool
  | .container a, .container b =>
    let c := s.fetch a
    let d := s.fetch b
    declaredCompatible c d &&
      (a == b ||
        if _h : s.EnterablePair path a b then
          let pairs := c.representative.zip d.representative
          pairs.all fun pair => s.compatibleWithin ((a, b) :: path) pair.1 pair.2
        else true)
  | .container _, _ => false
  | _, .container _ => false
  | v, w => (s.tag v).compatible (s.tag w)
termination_by s.pairRoom path
decreasing_by exact pairRoom_cons_lt _h

def compatible (s : Store) (v w : Value) : Bool := s.compatibleWithin [] v w

end Conductor.Store
