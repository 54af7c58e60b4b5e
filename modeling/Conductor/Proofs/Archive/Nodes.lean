import Conductor.Proofs.Archive.Accepted

namespace Conductor

open Archive

theorem Archive.wordSized_of_length_lt {text : String}
    (h : (textBytes text).length < byteCapacity 8) :
    WordSized text := by
  rw [textBytes, List.length_append] at h
  exact Nat.lt_of_le_of_lt (Nat.le_add_left _ _) h

namespace Archived

variable {tree node child : Archived}

-- The nodes right below the root, samples first.
def children : Archived → List Archived
  | list _ sample items => sample ++ items
  | map _ _ sample entries => sample ++ entries.map Prod.snd
  | void | bool _ | int _ | float _ | string _ => []

mutual

-- The root and every node below it.
def nodes : Archived → List Archived
  | void => [void]
  | bool b => [bool b]
  | int n => [int n]
  | float x => [float x]
  | string s => [string s]
  | list element sample items => list element sample items :: (nodesAll sample ++ nodesAll items)
  | map key element sample entries =>
    map key element sample entries :: (nodesAll sample ++ nodesEntries entries)

def nodesAll : List Archived → List Archived
  | [] => []
  | node :: rest => nodes node ++ nodesAll rest

def nodesEntries : List (String × Archived) → List Archived
  | [] => []
  | (_, node) :: rest => nodes node ++ nodesEntries rest

end

theorem nodesAll_eq (trees : List Archived) : nodesAll trees = trees.flatMap nodes := by
  induction trees with
  | nil => rfl
  | cons tree rest ih => rw [nodesAll, ih, List.flatMap_cons]

theorem nodesEntries_eq (entries : List (String × Archived)) :
    nodesEntries entries = (entries.map Prod.snd).flatMap nodes := by
  induction entries with
  | nil => rfl
  | cons entry rest ih => rw [nodesEntries, ih, List.map_cons, List.flatMap_cons]

theorem nodes_eq (tree : Archived) : tree.nodes = tree :: tree.children.flatMap nodes := by
  cases tree with
  | list element sample items => rw [nodes, nodesAll_eq, nodesAll_eq, children, List.flatMap_append]
  | map key element sample entries =>
    rw [nodes, nodesAll_eq, nodesEntries_eq, children, List.flatMap_append]
  | _ => rfl

theorem mem_nodes_self (tree : Archived) : tree ∈ tree.nodes := by
  rw [nodes_eq]
  exact List.mem_cons_self

theorem mem_nodes_of_child (hchild : child ∈ tree.children) (h : node ∈ child.nodes) :
    node ∈ tree.nodes := by
  rw [nodes_eq]
  exact List.mem_cons_of_mem _ (List.mem_flatMap.mpr ⟨child, hchild, h⟩)

-- Induction over trees, with the hypothesis for all that the root holds.
theorem ind_children {P : Archived → Prop} (h : ∀ tree, (∀ child ∈ tree.children, P child) → P tree)
    (tree : Archived) : P tree := by
  induction tree using ind with
  | list element sample items ihsample ihitems =>
    exact h _ (List.forall_mem_append.mpr ⟨ihsample, ihitems⟩)
  | map key element sample entries ihsample ihentries =>
    exact h _ (List.forall_mem_append.mpr ⟨ihsample, List.forall_mem_map.mpr ihentries⟩)
  | _ => exact h _ (List.forall_mem_nil _)

-- What holds of the root and goes on from every node to those right below it holds of all nodes.
theorem forall_nodes {P : Archived → Prop} (tree : Archived) (hroot : P tree)
    (hchildren : ∀ node, P node → ∀ child ∈ node.children, P child) :
    ∀ node ∈ tree.nodes, P node := by
  induction tree using ind_children with
  | h tree ih =>
    rw [nodes_eq]
    refine List.forall_mem_cons.mpr ⟨hroot, fun node hnode => ?_⟩
    obtain ⟨child, hchild, hmem⟩ := List.mem_flatMap.mp hnode
    exact ih child hchild (hchildren tree hroot child hchild) node hmem

theorem WordSized.of_child (h : tree.WordSized) : ∀ child ∈ tree.children, child.WordSized := by
  cases h with
  | list _ _ hsamples hnodes => exact List.forall_mem_append.mpr ⟨hsamples, hnodes⟩
  | map _ _ hsamples _ hnodes =>
    exact List.forall_mem_append.mpr ⟨hsamples, List.forall_mem_map.mpr hnodes⟩
  | _ => exact List.forall_mem_nil _

section Bytes

theorem infix_flatMap {α : Type} {encode : α → Bytes} {items : List α} {item : α}
    (h : item ∈ items) : encode item <:+: items.flatMap encode := by
  obtain ⟨before, after, rfl⟩ := List.append_of_mem h
  exact ⟨before.flatMap encode, after.flatMap encode, by simp⟩

theorem infix_counted {trees : List Archived} (h : node ∈ trees) :
    node.encode <:+: leBytes 8 trees.length ++ encodeAll trees := by
  rw [encodeAll_eq]
  exact (infix_flatMap h).trans (List.suffix_append _ _).isInfix

theorem infix_counted_entries {entries : List (String × Archived)}
    (h : node ∈ entries.map Prod.snd) :
    node.encode <:+: leBytes 8 entries.length ++ encodeEntries entries := by
  obtain ⟨entry, hentry, rfl⟩ := List.mem_map.mp h
  rw [encodeEntries_eq]
  have hvalue : entry.2.encode <:+: encodeEntry entry := (List.suffix_append _ _).isInfix
  exact hvalue.trans ((infix_flatMap hentry).trans (List.suffix_append _ _).isInfix)

theorem infix_encode_of_child (h : child ∈ tree.children) : child.encode <:+: tree.encode := by
  cases tree with
  | list element sample items =>
    rw [encode]
    rcases List.mem_append.mp h with hmem | hmem
    · exact (infix_counted hmem).trans ⟨_, _, rfl⟩
    · exact (infix_counted hmem).trans (List.suffix_append _ _).isInfix
  | map key element sample entries =>
    rw [encode]
    rcases List.mem_append.mp h with hmem | hmem
    · exact (infix_counted hmem).trans ⟨_, _, rfl⟩
    · exact (infix_counted_entries hmem).trans (List.suffix_append _ _).isInfix
  | _ => cases h

theorem infix_encode_of_mem_nodes : ∀ node ∈ tree.nodes, node.encode <:+: tree.encode :=
  forall_nodes tree List.infix_rfl fun _ hnode _ hchild =>
    (infix_encode_of_child hchild).trans hnode

theorem length_values_le (entries : List (String × Archived)) :
    ((entries.map Prod.snd).flatMap encode).length ≤ (encodeEntries entries).length := by
  induction entries with
  | nil => exact Nat.le_refl _
  | cons entry rest ih =>
    rw [List.map_cons, List.flatMap_cons, encodeEntries]
    simp only [List.length_append]
    omega

-- The number of its kind comes in front of what a node holds.
theorem length_children_le (tree : Archived) :
    4 + (tree.children.flatMap encode).length ≤ tree.encode.length := by
  cases tree with
  | list element sample items =>
    simp only [children, encode, encodeAll_eq, List.flatMap_append, List.length_append,
      length_leBytes]
    omega
  | map key element sample entries =>
    have hvalues := length_values_le entries
    simp only [children, encode, encodeAll_eq, List.flatMap_append, List.length_append,
      length_leBytes]
    omega
  | _ => simp [children, encode]

theorem length_nodes_le (tree : Archived) : 4 * tree.nodes.length ≤ tree.encode.length := by
  have hflatMap (trees : List Archived)
      (h : ∀ node ∈ trees, 4 * node.nodes.length ≤ node.encode.length) :
      4 * (trees.flatMap nodes).length ≤ (trees.flatMap encode).length := by
    induction trees with
    | nil => exact Nat.le_refl _
    | cons head rest ih =>
      obtain ⟨hhead, hrest⟩ := List.forall_mem_cons.mp h
      have hbelow := ih hrest
      simp only [List.flatMap_cons, List.length_append]
      omega
  induction tree using ind_children with
  | h tree ih =>
    have hbelow := hflatMap tree.children ih
    have hlength := length_children_le tree
    rw [nodes_eq, List.length_cons]
    omega

-- Each node was read from bytes of its own, four at least.
theorem exists_read_of_mem_nodes (h : tree.WordSized) (rest : Bytes) :
    ∀ node ∈ tree.nodes, ∃ before own after, tree.encode = before ++ own ++ after ∧
      4 ≤ own.length ∧ decode (own ++ (after ++ rest)) = .ok (node, after ++ rest) := by
  intro node hnode
  obtain ⟨before, after, hbytes⟩ := infix_encode_of_mem_nodes node hnode
  have hsized := forall_nodes tree h (fun _ => WordSized.of_child) node hnode
  have hlength := length_children_le node
  exact ⟨before, node.encode, after, hbytes.symm, by omega, reads_decode hsized _⟩

theorem length_le_length_encodeAll (trees : List Archived) :
    trees.length ≤ (encodeAll trees).length := by
  rw [encodeAll_eq]
  refine length_le_of_forall_pos encode fun node _ => ?_
  have hlength := length_children_le node
  omega

theorem length_le_length_encodeEntries (entries : List (String × Archived)) :
    entries.length ≤ (encodeEntries entries).length := by
  rw [encodeEntries_eq]
  refine length_le_of_forall_pos encodeEntry fun entry _ => ?_
  have hlength := length_children_le entry.2
  rw [encodeEntry, List.length_append]
  omega

theorem wordSized_of_length_lt {tree : Archived} (h : tree.encode.length < byteCapacity 8) :
    tree.WordSized := by
  have hchildren (node : Archived) (hnode : node.encode.length < byteCapacity 8) :
      ∀ child ∈ node.children, child.encode.length < byteCapacity 8 := fun child hmem =>
    Nat.lt_of_le_of_lt (infix_encode_of_child hmem).length_le hnode
  induction tree using ind with
  | void => exact .void
  | bool b => exact .bool b
  | int n => exact .int n
  | float x => exact .float x
  | string s =>
    rw [encode, List.length_append] at h
    exact .string (Archive.wordSized_of_length_lt (by omega))
  | list element sample items ihsample ihitems =>
    obtain ⟨hsample, hitems⟩ := List.forall_mem_append.mp (hchildren _ h)
    have hsamples := length_le_length_encodeAll sample
    have hnodes := length_le_length_encodeAll items
    simp only [encode, List.length_append] at h
    exact .list (by omega) (by omega) (fun node hmem => ihsample node hmem (hsample node hmem))
      fun node hmem => ihitems node hmem (hitems node hmem)
  | map key element sample entries ihsample ihentries =>
    obtain ⟨hsample, hvalues⟩ := List.forall_mem_append.mp (hchildren _ h)
    have hsamples := length_le_length_encodeAll sample
    have hnodes := length_le_length_encodeEntries entries
    simp only [encode, List.length_append] at h
    refine .map (by omega) (by omega) (fun node hmem => ihsample node hmem (hsample node hmem))
      (fun entry hmem => ?_) fun entry hmem =>
        ihentries entry hmem (hvalues _ (List.mem_map_of_mem hmem))
    have hentry := length_le_length_flatMap encodeEntry hmem
    rw [encodeEntry, List.length_append, ← encodeEntries_eq] at hentry
    exact Archive.wordSized_of_length_lt (by omega)

end Bytes

end Archived

end Conductor
