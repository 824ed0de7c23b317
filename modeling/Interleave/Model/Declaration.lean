import Interleave.Transition

/-! What a model script declares: actors as lists of steps, and invariants. Functions of the script are
values of a type `φ` that the declarations only carry. -/

namespace Interleave.Model

structure StepDecl (φ : Type) where
  kind : Kind
  resource : String
  label : String
  /-- The number of outcomes, at least one. -/
  choices : Int
  run : Option φ
  guard : Option φ
deriving Repr

structure ActorDecl (φ : Type) where
  name : String
  steps : List (StepDecl φ)
deriving Repr

structure InvariantDecl (φ : Type) where
  name : String
  test : φ
deriving Repr

structure Declarations (φ : Type) where
  actors : Array (ActorDecl φ)
  invariants : Array (InvariantDecl φ)
deriving Repr

def Declarations.empty {φ : Type} : Declarations φ := ⟨#[], #[]⟩

end Interleave.Model
