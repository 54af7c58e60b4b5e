import Conductor.Store.Path

namespace Conductor.Store

-- The text of a value inside the containers of a path.
def displayWithin (s : Store) (path : List Address) : Value → String
  | .void => "void"
  | .bool b => if b then "true" else "false"
  | .int n => toString n.toInt
  | .float x => x.text
  | .string text => text
  | .container a =>
    if _h : s.Enterable path a then
      match s.fetch a with
      | .list cell => "[" ++ ", ".intercalate (cell.items.map (s.displayWithin (a :: path))) ++ "]"
      | .map cell =>
        "\x7b" ++ ", ".intercalate (cell.entries.toList.map fun entry =>
          entry.1 ++ " : " ++ s.displayWithin (a :: path) entry.2) ++ "\x7d"
    else (s.fetch a).ellipsis
termination_by s.room path
decreasing_by all_goals exact room_cons_lt _h

def display (s : Store) (v : Value) : String := s.displayWithin [] v

end Conductor.Store
