import Conductor.Store.Path

namespace Conductor

-- The containers that a container holds on to.
def Container.references (c : Container) : List Address := c.children.filterMap Value.address?

namespace Store

-- Adds to the containers already seen those that the waiting ones reach.
def reachFrom (s : Store) (seen : List Address) : List Address → List Address
  | [] => seen
  | a :: waiting =>
    if _h : s.Enterable seen a then s.reachFrom (a :: seen) ((s.fetch a).references ++ waiting)
    else s.reachFrom seen waiting
termination_by waiting => (s.room seen, waiting.length)
decreasing_by
  · exact Prod.Lex.left _ _ (room_cons_lt _h)
  · exact Prod.Lex.right _ (by simp)

-- The containers that the roots reach, the roots among them.
def reach (s : Store) (roots : List Value) : List Address :=
  s.reachFrom [] (roots.filterMap Value.address?)

end Store

end Conductor
