import Conductor.Container
import Conductor.ValueError

namespace Conductor

-- An address is never given out twice, and a container that was released leaves a gap.
structure Store where
  cells : Array (Option Container)

namespace Store

def empty : Store := ⟨#[]⟩

instance : Inhabited Store := ⟨empty⟩

def find? (s : Store) (a : Address) : Option Container := s.cells[a.index]?.join

-- What a reference to no living container reads as: an empty list.
def vacant : Container := .list { element := .any }

def fetch (s : Store) (a : Address) : Container := (s.find? a).getD vacant

def allocate (s : Store) (c : Container) : Address × Store :=
  (⟨s.cells.size⟩, ⟨s.cells.push (some c)⟩)

def put (s : Store) (a : Address) (c : Container) : Store :=
  ⟨s.cells.setIfInBounds a.index (some c)⟩

def modify (s : Store) (a : Address) (f : Container → Container) : Store :=
  match s.find? a with
  | some c => s.put a (f c)
  | none => s

-- A container as a value of the store that holds it.
def allocateValue (s : Store) (c : Container) : Value × Store :=
  let (a, s) := s.allocate c
  (.container a, s)

def container? (s : Store) : Value → Option Container
  | .container a => some (s.fetch a)
  | _ => none

def mapCell? (s : Store) (v : Value) : Option MapCell :=
  match s.container? v with
  | some (.map cell) => some cell
  | _ => none

def listCell? (s : Store) (v : Value) : Option ListCell :=
  match s.container? v with
  | some (.list cell) => some cell
  | _ => none

def tag (s : Store) : Value → Tag
  | .void => .void
  | .bool _ => .bool
  | .int _ => .int
  | .float _ => .float
  | .string _ => .string
  | .container a => (s.fetch a).object

-- The number of elements of a container, of characters of a text, and one for other scalars.
def size (s : Store) : Value → Nat
  | .container a => (s.fetch a).size
  | .string text => text.length
  | _ => 1

-- The error of an operation that takes no value of this type.
def refuse {α : Type} (s : Store) (operation : Operation) (v : Value) : Except ValueError α :=
  .error (.undefined operation (s.tag v) none)

def stringify (s : Store) (v : Value) : Except ValueError String :=
  match v.text? with
  | some text => .ok text
  | none => s.refuse .stringify v

-- The value a variable of this type starts with. Containers come fresh.
def defaultValue (s : Store) : Tag → Value × Store
  | .void | .any | .none => (.void, s)
  | .bool => (.bool false, s)
  | .int => (.int 0, s)
  | .float => (.float (Double.zero false), s)
  | .string => (.string "", s)
  | .list => s.allocateValue (.list { element := .any })
  | .map => s.allocateValue (.map (.new .map .string .any))
  | .device d => s.allocateValue (.map (.record d))

-- Applies an operation on the store to every element in turn.
def traverse {α β : Type} (f : Store → α → β × Store) (s : Store) : List α → List β × Store
  | [] => ([], s)
  | head :: rest =>
    let (head, s) := f s head
    let (rest, s) := traverse f s rest
    (head :: rest, s)

theorem find?_of_size_le {s : Store} {a : Address} (h : s.cells.size ≤ a.index) :
    s.find? a = none := by
  simp [find?, Array.getElem?_eq_none h]

theorem fetch_of_size_le {s : Store} {a : Address} (h : s.cells.size ≤ a.index) :
    s.fetch a = vacant := by
  rw [fetch, find?_of_size_le h]
  rfl

theorem find?_allocate {s : Store} {c : Container} {a : Address} :
    (s.allocate c).2.find? a = if a = (s.allocate c).1 then some c else s.find? a := by
  by_cases h : a = ⟨s.cells.size⟩
  · subst h
    simp [find?, allocate]
  · have hi : a.index ≠ s.cells.size := fun hi => h (by cases a; simp_all)
    simp [find?, allocate, h, Array.getElem?_push, hi]

theorem find?_put {s : Store} {c : Container} {a b : Address} (h : a.index < s.cells.size) :
    (s.put a c).find? b = if b = a then some c else s.find? b := by
  by_cases hb : b = a
  · subst hb
    simp [find?, put, h]
  · have hi : a.index ≠ b.index := fun hi => hb (by cases a; cases b; simp_all)
    simp [find?, put, hb, hi]

end Store

end Conductor
