import ViewTree.Visit.Context

/-!
Walks.  A walk runs in a session: the store of the tree that is walked, and the world of those who
walk it.  What a walk has written before it fails stays written.
-/

namespace ViewTree

structure Session (σ : Type) where
  store : Store
  world : σ

abbrev Walk (σ : Type) := EStateM Failure (Session σ)

structure Lens (ρ σ : Type) where
  get : ρ → σ
  set : σ → ρ → ρ

namespace Lens

def id : Lens σ σ := ⟨fun world => world, fun part _ => part⟩

def fst : Lens (σ × τ) σ := ⟨Prod.fst, fun part world => (part, world.2)⟩

def snd : Lens (σ × τ) τ := ⟨Prod.snd, fun part world => (world.1, part)⟩

end Lens

namespace Walk

def store : Walk σ Store :=
  return (← get).store

def change (f : Store → α × Store) : Walk σ α := fun ⟨s, world⟩ =>
  let (result, s) := f s
  .ok result ⟨s, world⟩

def modifyWorld (change : σ → σ) : Walk σ Unit :=
  modify fun session => { session with world := change session.world }

def load (t : Tree) : Walk σ Value :=
  change (Store.load t)

def clone (value : Value) : Walk σ Value :=
  change (Store.clone value)

def box (value : Value) : Walk σ ArrayRef :=
  change fun s => (⟨s.arrays.size⟩, (Store.newArray [value] s).2)

def unbox (box : ArrayRef) : Walk σ Value :=
  return ((← store).items box).headD .null

def write (place : Place) (value : Value) : Walk σ Unit := fun ⟨s, world⟩ =>
  if s.has place then .ok () ⟨s.write place value, world⟩
  else .error .vanishedPosition ⟨s, world⟩

def classify (node : Value) : Walk σ Kind := do
  match (← store).classify node with
  | .ok kind => return kind
  | .error cause => throw (.invalidNode cause)

def ofExcept : Except Failure α → Walk σ α
  | .ok value => pure value
  | .error failure => throw failure

/-- A walk that knows a part of the world, run in the whole. -/
def zoom (lens : Lens ρ σ) (walk : Walk σ α) : Walk ρ α := fun ⟨s, world⟩ =>
  match walk ⟨s, lens.get world⟩ with
  | .ok value ⟨s, part⟩ => .ok value ⟨s, lens.set part world⟩
  | .error failure ⟨s, part⟩ => .error failure ⟨s, lens.set part world⟩

end Walk

end ViewTree
