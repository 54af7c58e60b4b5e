import Conductor.Archive.Fault

namespace Conductor.Archive

abbrev Reader := StateT Bytes (Except Fault)

-- The first `n` bytes and the rest.
def split? : Nat → Bytes → Option (Bytes × Bytes)
  | 0, bytes => some ([], bytes)
  | _ + 1, [] => none
  | n + 1, byte :: rest => (split? n rest).map fun (front, rest) => (byte :: front, rest)

theorem split?_append (front rest : Bytes) :
    split? front.length (front ++ rest) = some (front, rest) := by
  induction front with
  | nil => simp [split?]
  | cons byte front ih => simp [split?, ih]

theorem append_of_split? {n : Nat} {bytes front rest : Bytes}
    (h : split? n bytes = some (front, rest)) :
    bytes = front ++ rest ∧ front.length = n := by
  induction n generalizing bytes front with
  | zero =>
    simp only [split?, Option.some.injEq, Prod.mk.injEq] at h
    obtain ⟨rfl, rfl⟩ := h
    simp
  | succ n ih =>
    cases bytes with
    | nil => simp [split?] at h
    | cons byte bytes =>
      simp only [split?, Option.map_eq_some_iff] at h
      obtain ⟨⟨inner, tail⟩, hinner, heq⟩ := h
      simp only [Prod.mk.injEq] at heq
      obtain ⟨rfl, rfl⟩ := heq
      obtain ⟨rfl, hlen⟩ := ih hinner
      simp [hlen]

namespace Reader

variable {α : Type}

def take (fault : Fault) (n : Nat) : Reader Bytes := fun bytes =>
  match split? n bytes with
  | some result => .ok result
  | none => .error fault

-- A number of the given width in bytes.
def number (width : Nat) : Reader Nat := leNat <$> take .endOfField width

def bool : Reader Bool := do
  match ← number 1 with
  | 0 => return false
  | 1 => return true
  | byte => throw (.badBool byte)

def text : Reader String := do
  let bytes ← take .endOfText (← number 8)
  match Utf8.decode bytes with
  | .ok s => return s
  | .error fault => throw (.badText fault)

-- The number of one of `count` alternatives.
def variant (count : Nat) : Reader Nat := do
  let index ← number 4
  if index < count then return index else throw (.badVariant index count)

-- One of the listed alternatives, by its place in the list.
def choice (values : List α) : Reader α := do
  let index ← number 4
  match values[index]? with
  | some value => return value
  | none => throw (.badVariant index values.length)

def tag : Reader Tag := do
  let code ← number 4
  match Tag.ofCode? code with
  | some tag => return tag
  | none => throw (.badTag code)

def times (read : Reader α) : Nat → Reader (List α)
  | 0 => return []
  | n + 1 => do
    let head ← read
    return head :: (← times read n)

def seq (read : Reader α) : Reader (List α) := do times read (← number 8)

end Reader

end Conductor.Archive
