import Mathlib.Data.List.Infix
import Mathlib.Logic.Function.Basic

/-! # File trees

A tree gives what lies at each path, and everything lies in a directory. The operations fail where a file system
refuses them: a file goes only into a directory that exists, and a rename only to a free name. Each operation says
what lies at every path afterwards.
-/

namespace Teleno.Library

open List Option Function

/-- A regular file or a directory. -/
inductive TreeNode (β : Type) where
  | file (content : β)
  | directory

def TreeNode.isDirectory {β : Type} : TreeNode β → Bool
  | file _ => false
  | directory => true

def TreeNode.content {β : Type} : TreeNode β → Option β
  | file content => some content
  | directory => none

structure FileTree (β : Type) where
  node : List String → Option (TreeNode β)
  root : node [] = some .directory
  parent : ∀ path name, (node (path ++ [name])).isSome → node path = some .directory

namespace FileTree

variable {β : Type} {tree tree' : FileTree β} {path other source destination : List String} {content : β}

/-- Nothing but the root. -/
def empty : FileTree β where
  node path := if path = [] then some .directory else none
  root := rfl
  parent path name present := by simp at present

/-- Something lies at the path. -/
def occupied (path : List String) (tree : FileTree β) : Bool := (tree.node path).isSome

def isDirectory (path : List String) (tree : FileTree β) : Bool := (tree.node path).any TreeNode.isDirectory

/-- The content of the file at a path. -/
def read (path : List String) (tree : FileTree β) : Option β := (tree.node path).bind TreeNode.content

theorem isDirectory_iff : tree.isDirectory path = true ↔ tree.node path = some .directory := by
  rw [isDirectory]
  cases tree.node path with
  | none => simp
  | some node => cases node <;> simp [TreeNode.isDirectory]

theorem read_eq_some : tree.read path = some content ↔ tree.node path = some (.file content) := by
  rw [read]
  cases tree.node path with
  | none => simp
  | some node => cases node <;> simp [TreeNode.content]

/-- What is not there has nothing below it. -/
theorem node_append (directory : tree.node path ≠ some .directory) {rest : List String} (below : rest ≠ []) :
    tree.node (path ++ rest) = none := by
  induction rest using reverseRecOn with
  | nil => exact absurd rfl below
  | append_singleton rest name ih =>
    rw [← not_isSome_iff_eq_none, ← append_assoc]
    intro present
    have holder := tree.parent _ _ present
    by_cases last : rest = []
    · subst last
      rw [append_nil] at holder
      exact directory holder
    · rw [ih last] at holder
      contradiction

theorem node_of_isPrefix (missing : tree.node path = none) (below : path <+: other) : tree.node other = none := by
  obtain ⟨rest, rfl⟩ := below
  by_cases last : rest = []
  · rw [last, append_nil]
    exact missing
  · exact node_append (by simp [missing]) last

/-- A directory that holds the path, which is not the root. -/
structure Enclosed (tree : FileTree β) (path : List String) : Prop where
  below : path ≠ []
  holder : tree.node path.dropLast = some .directory

instance : Decidable (tree.Enclosed path) :=
  decidable_of_iff (path ≠ [] ∧ tree.isDirectory path.dropLast = true) (by
    rw [isDirectory_iff]
    exact ⟨fun held => ⟨held.1, held.2⟩, fun held => ⟨held.1, held.2⟩⟩)

/-- Put something at a path that has nothing below it. -/
def set (path : List String) (node : Option (TreeNode β)) (tree : FileTree β) (enclosed : tree.Enclosed path)
    (leaf : tree.node path ≠ some .directory) : FileTree β where
  node := Function.update tree.node path node
  root := by
    rw [Function.update_of_ne enclosed.below.symm]
    exact tree.root
  parent other name present := by
    by_cases same : other ++ [name] = path
    · have holder : path.dropLast = other := by rw [← same, List.dropLast_concat]
      have differ : other ≠ path := by
        rintro rfl
        simp at same
      rw [Function.update_of_ne differ, ← holder]
      exact enclosed.holder
    · rw [Function.update_of_ne same] at present
      have directory := tree.parent other name present
      have differ : other ≠ path := by
        rintro rfl
        exact leaf directory
      rwa [Function.update_of_ne differ]

/-- Write a file, which may be there already. -/
def write (path : List String) (content : β) (tree : FileTree β) : Option (FileTree β) :=
  if enclosed : tree.Enclosed path then
    if leaf : tree.isDirectory path = true then none
    else some (tree.set path (some (.file content)) enclosed (by rwa [isDirectory_iff] at leaf))
  else none

def removeFile (path : List String) (tree : FileTree β) : Option (FileTree β) :=
  if enclosed : tree.Enclosed path then
    if leaf : tree.isDirectory path = true ∨ tree.occupied path = false then none
    else some (tree.set path none enclosed (by
      rw [not_or, isDirectory_iff] at leaf
      exact leaf.1))
  else none

def makeDirectory (path : List String) (tree : FileTree β) : Option (FileTree β) :=
  if enclosed : tree.Enclosed path then
    if free : tree.occupied path = true then none
    else some (tree.set path (some .directory) enclosed (by
      intro present
      rw [FileTree.occupied, present] at free
      exact free rfl))
  else none

/-- The directories on the way to a path, below a base. -/
def makeDirectoriesFrom (base : List String) : List String → FileTree β → Option (FileTree β)
  | [], tree => some tree
  | name :: rest, tree =>
    if tree.isDirectory (base ++ [name]) then makeDirectoriesFrom (base ++ [name]) rest tree
    else (tree.makeDirectory (base ++ [name])).bind (makeDirectoriesFrom (base ++ [name]) rest)

def makeDirectories (path : List String) (tree : FileTree β) : Option (FileTree β) := makeDirectoriesFrom [] path tree

/-- The source exists, the destination is free, and its directory exists and is not in the source. -/
structure Renames (source destination : List String) (tree : FileTree β) : Prop where
  present : tree.occupied source = true
  proper : source ≠ []
  free : tree.node destination = none
  enclosed : tree.Enclosed destination
  apart : ¬ source <+: destination

instance : Decidable (tree.Renames source destination) :=
  decidable_of_iff (tree.occupied source = true ∧ source ≠ [] ∧ tree.occupied destination = false ∧
      tree.Enclosed destination ∧ ¬ source <+: destination) (by
    constructor
    · rintro ⟨present, proper, free, enclosed, apart⟩
      exact ⟨present, proper, by simpa [FileTree.occupied] using free, enclosed, apart⟩
    · rintro ⟨present, proper, free, enclosed, apart⟩
      exact ⟨present, proper, by simp [FileTree.occupied, free], enclosed, apart⟩)

/-- What lies at a path after a rename. -/
def renamed (source destination : List String) (tree : FileTree β) (path : List String) : Option (TreeNode β) :=
  if source <+: path then none
  else if destination <+: path then tree.node (source ++ path.drop destination.length)
  else tree.node path

theorem renamed_parent (renames : tree.Renames source destination) (path : List String) (name : String)
    (present : (tree.renamed source destination (path ++ [name])).isSome) :
    tree.renamed source destination path = some .directory := by
  rw [renamed] at present ⊢
  split_ifs at present with moved under
  · contradiction
  · rw [if_neg fun above => moved (above.trans (prefix_append ..))]
    rcases prefix_concat_iff.mp under with same | inside
    · have holder : destination.dropLast = path := by rw [same, dropLast_concat]
      have above : ¬ destination <+: path := by
        intro contrary
        have longer := contrary.length_le
        rw [same, length_append, length_singleton] at longer
        omega
      rw [if_neg above, ← holder]
      exact renames.enclosed.holder
    · rw [if_pos inside]
      rw [drop_append_of_le_length inside.length_le, ← append_assoc] at present
      exact tree.parent _ _ present
  · rw [if_neg fun above => moved (above.trans (prefix_append ..)),
      if_neg fun above => under (above.trans (prefix_append ..))]
    exact tree.parent _ _ present

def rename (source destination : List String) (tree : FileTree β) : Option (FileTree β) :=
  if renames : tree.Renames source destination then
    some
      { node := tree.renamed source destination
        root := by
          rw [renamed, if_neg fun above => renames.proper (List.prefix_nil.mp above),
            if_neg fun above => renames.enclosed.below (List.prefix_nil.mp above)]
          exact tree.root
        parent := renamed_parent renames }
  else none

section Outcomes

theorem write_eq_some (writes : tree.write path content = some tree') :
    (tree.Enclosed path ∧ tree.isDirectory path = false) ∧
      tree'.node = update tree.node path (some (.file content)) := by
  rw [write] at writes
  split_ifs at writes with enclosed leaf
  obtain rfl := some.inj writes
  exact ⟨⟨enclosed, Bool.eq_false_iff.mpr leaf⟩, rfl⟩

theorem removeFile_eq_some (removes : tree.removeFile path = some tree') :
    tree'.node = update tree.node path none := by
  rw [removeFile] at removes
  split_ifs at removes
  obtain rfl := some.inj removes
  rfl

theorem makeDirectory_eq_some (makes : tree.makeDirectory path = some tree') :
    tree.node path = none ∧ tree'.node = update tree.node path (some .directory) := by
  rw [makeDirectory] at makes
  split_ifs at makes with enclosed free
  obtain rfl := some.inj makes
  exact ⟨by simpa [FileTree.occupied] using free, rfl⟩

theorem rename_eq_some (renames : tree.rename source destination = some tree') :
    tree.Renames source destination ∧ tree'.node = tree.renamed source destination := by
  rw [rename] at renames
  split_ifs at renames with possible
  obtain rfl := some.inj renames
  exact ⟨possible, rfl⟩

/-- Only missing directories on the way are made. -/
theorem makeDirectoriesFrom_node {base rest : List String} (makes : tree.makeDirectoriesFrom base rest = some tree')
    (path : List String) :
    tree'.node path = tree.node path ∨
      tree.node path = none ∧ tree'.node path = some .directory ∧ path <+: base ++ rest := by
  induction rest generalizing base tree with
  | nil =>
    obtain rfl := some.inj makes
    exact .inl rfl
  | cons name rest ih =>
    have onTheWay : base ++ name :: rest = (base ++ [name]) ++ rest := by simp
    rw [makeDirectoriesFrom] at makes
    split_ifs at makes
    · rw [onTheWay]
      exact ih makes
    · obtain ⟨between, made, rest⟩ := bind_eq_some_iff.mp makes
      obtain ⟨missing, node⟩ := makeDirectory_eq_some made
      rw [onTheWay]
      rcases ih rest with same | ⟨absent, created, above⟩
      · by_cases here : path = base ++ [name]
        · subst here
          rw [same, node, update_self]
          exact .inr ⟨missing, rfl, prefix_append ..⟩
        · rw [same, node, update_of_ne here]
          exact .inl rfl
      · by_cases here : path = base ++ [name]
        · subst here
          rw [node, update_self] at absent
          contradiction
        · rw [node, update_of_ne here] at absent
          exact .inr ⟨absent, created, above⟩

theorem makeDirectories_node (makes : tree.makeDirectories path = some tree') (other : List String) :
    tree'.node other = tree.node other ∨
      tree.node other = none ∧ tree'.node other = some .directory ∧ other <+: path :=
  makeDirectoriesFrom_node makes other

/-- No file changes when directories are made. -/
theorem makeDirectories_read (makes : tree.makeDirectories path = some tree') (other : List String) :
    tree'.read other = tree.read other := by
  rcases makeDirectories_node makes other with same | ⟨missing, created, -⟩
  · rw [read, read, same]
  · rw [read, read, missing, created]
    rfl

end Outcomes

end FileTree

end Teleno.Library
