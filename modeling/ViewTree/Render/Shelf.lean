import ViewTree.Render.Registry

/-!
Registries beside the mappings they are made of.  A shelf holds mappings, and whoever holds a mapping
may write to it.  A registry keeps its entries in a mapping of its own, which is laid out when the
registry is made and handed to nobody.
-/

namespace ViewTree

structure MappingRef where
  index : Nat
deriving DecidableEq

structure RegistryRef where
  own : MappingRef
deriving DecidableEq

structure Shelf where
  mappings : List (Members Tree) := []

namespace Shelf

def entries (shelf : Shelf) (ref : MappingRef) : Members Tree :=
  shelf.mappings[ref.index]?.getD []

def lay (entries : Members Tree) (shelf : Shelf) : MappingRef × Shelf :=
  (⟨shelf.mappings.length⟩, ⟨shelf.mappings ++ [entries]⟩)

def change (ref : MappingRef) (entries : Members Tree) (shelf : Shelf) : Shelf :=
  ⟨shelf.mappings.set ref.index entries⟩

def registry (shelf : Shelf) (ref : RegistryRef) : Registry :=
  .ofEntries (shelf.entries ref.own)

def keep (registry : Registry) (shelf : Shelf) : RegistryRef × Shelf :=
  let (own, shelf) := shelf.lay registry.entries
  (⟨own⟩, shelf)

end Shelf

end ViewTree
