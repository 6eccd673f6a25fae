import Codemod.Transform.Arrow
import Codemod.Transform.Bind
import Codemod.Transform.Component
import Codemod.Transform.Destructure

/-!
# Registries of transforms

The transforms that can be asked for by name, in the order in which they were
registered.  A run takes the ones that change what other modules see first.
-/

namespace Codemod

structure Registry where
  transforms : List Transform

namespace Registry

def empty : Registry :=
  ⟨[]⟩

def register (registry : Registry) (transform : Transform) : Registry :=
  ⟨registry.transforms ++ [transform]⟩

/--
The transforms of this library.  A component becomes a class before its
properties are read through `this`, and they are read so before they become
local names.
-/
def builtin : Registry :=
  ⟨[.pureToComposite, .functionToArrow, .propsToDestructuring, .bindExpression]⟩

def names (registry : Registry) : List String :=
  registry.transforms.map Transform.name

def find? (registry : Registry) (name : String) : Option Transform :=
  registry.transforms.find? fun transform => transform.name == name

/-- Whether a transform is asked for; no names ask for all. -/
def isSelected (names : List String) (transform : Transform) : Bool :=
  names.isEmpty || names.contains transform.name

/--
The transforms asked for by name, in the order in which they run; the first
name that is not registered otherwise.
-/
def ordered (registry : Registry) (names : List String) :
    Except String (List Transform) :=
  match names.find? fun name => (registry.find? name).isNone with
  | some unknown => .error unknown
  | none =>
    let selected := registry.transforms.filter (isSelected names)
    .ok (selected.filter Transform.changesModule ++
      selected.filter fun transform => !transform.changesModule)

end Registry

end Codemod
